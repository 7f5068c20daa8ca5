import Mathlib

/-!
# Images of scalar values

The strings that `grt-images` and `grt-vstrings` make of the values of scalar types: the name of a literal, the
digits of a number, and for a physical type the digits followed by the name of the primary unit.
-/

namespace Ghdl.Text

/-- `Ghdl_C_String`: the characters before the NUL. -/
abbrev CString := List Char

/-- The signed integer of the given width, without an overflow check. -/
def wrap (bits : Nat) (n : Int) : Int := n.bmod (2 ^ bits)

/-- `Ghdl_Rtik` of the types of integers. -/
inductive IntegerKind where
  | i32
  | i64
deriving DecidableEq, Repr

/-- `Ghdl_Rtik` of the physical types. -/
inductive PhysicalKind where
  | p32
  | p64
deriving DecidableEq, Repr

/-- `Ghdl_Rtin_Type_Enum`. -/
structure EnumType where
  name : CString
  names : List CString

/-- A unit, with its `Get_Physical_Unit_Name` and its `Get_Physical_Unit_Value`. -/
structure PhysicalUnit where
  name : CString
  value : Int

/-- `Ghdl_Rtin_Type_Physical`: the first unit is the primary one. -/
structure PhysicalType where
  kind : PhysicalKind
  name : CString
  primary : PhysicalUnit
  secondary : List PhysicalUnit

/-- `Units`. -/
def PhysicalType.units (t : PhysicalType) : List PhysicalUnit := t.primary :: t.secondary

/-- The loop of `To_String`, from the last character on: V is not positive. The string has room for ROOM
more characters. -/
def toStringLoop : Nat → Int → List Char → Option (List Char)
  | 0, _, _ => none
  | room + 1, v, s =>
    let s := Char.ofNat (48 - v.tmod 10).toNat :: s
    let v := v.tdiv 10
    if v = 0 then some s else toStringLoop room v s

/-- `To_String`, in a string of LENGTH characters. -/
def toString (length : Nat) (n : Int) : Option (List Char) := do
  let v := if 0 < n then -n else n
  let s ← toStringLoop length v []
  if n < 0 then
    if s.length < length then some ('-' :: s) else none
  else some s

/-- `Return_Enum`. -/
def returnEnum (t : EnumType) (index : Nat) : Option (List Char) := t.names[index]?

/-- `Ghdl_Image_I32` and `Ghdl_Image_I64`. -/
def imageInteger (kind : IntegerKind) (val : Int) : Option (List Char) :=
  match kind with
  | .i32 => toString 11 val
  | .i64 => toString 21 val

/-- The length of the strings of `Ghdl_Image_P32` and `Ghdl_Image_P64`. -/
def PhysicalKind.imageLength : PhysicalKind → Nat
  | .p32 => 11
  | .p64 => 21

/-- `Ghdl_Image_P32` and `Ghdl_Image_P64`. -/
def imagePhysical (t : PhysicalType) (val : Int) : Option (List Char) := do
  let str ← toString t.kind.imageLength val
  some (str ++ ' ' :: t.primary.name)

end Ghdl.Text
