import Mathlib.Data.Nat.Notation

/-!
# Characters of the scanner

The classification of the characters, as in `Characters_Kind`. `Character` has the codes up to 255.
-/

namespace Ghdl.Vhdl

/-- `Character_Kind_Type`. -/
inductive CharacterKind where
  | invalid
  | formatEffector
  | lowerCaseLetter
  | upperCaseLetter
  | digit
  | specialCharacter
  | spaceCharacter
  | otherSpecialCharacter
  deriving DecidableEq, Repr

/-- The special characters. -/
def specials : List Char :=
  ['"', '#', '&', '\'', '(', ')', '+', ',', '-', '.', '/', ':', ';', '<', '=', '>', '[', ']', '_', '|', '*']

/-- `Characters_Kind`. -/
def charactersKind (c : Char) : CharacterKind :=
  let n := c.toNat
  if n ≤ 8 then .invalid
  else if n ≤ 13 then .formatEffector
  else if n ≤ 31 then .invalid
  else if 65 ≤ n ∧ n ≤ 90 ∨ 192 ≤ n ∧ n ≤ 214 ∨ 216 ≤ n ∧ n ≤ 222 then .upperCaseLetter
  else if 48 ≤ n ∧ n ≤ 57 then .digit
  else if c ∈ specials then .specialCharacter
  else if n = 32 ∨ n = 160 then .spaceCharacter
  else if 97 ≤ n ∧ n ≤ 122 ∨ 223 ≤ n ∧ n ≤ 246 ∨ 248 ≤ n ∧ n ≤ 255 then .lowerCaseLetter
  else if n ≤ 126 ∨ 161 ≤ n ∧ n ≤ 255 then .otherSpecialCharacter
  else .invalid

/-- `Graphic_Character`: the kinds from `Lower_Case_Letter` to `Other_Special_Character`. -/
def Graphic (c : Char) : Prop := charactersKind c ≠ .invalid ∧ charactersKind c ≠ .formatEffector

instance (c : Char) : Decidable (Graphic c) := inferInstanceAs (Decidable (_ ∧ _))

end Ghdl.Vhdl
