import Ghdl.Numbers.Underscores
import Ghdl.Vhdl.BitStrings

/-!
# The scanner of decimal bit strings

`Scan_Dec_Bit_String` keeps the bits of the number in the string itself. For each digit it multiplies them by ten and
adds the digit, both with a carry of four bits that is shifted along the string from its end. What is left of the carry
is put in front.
-/

namespace Ghdl.Vhdl

open Fallible Numbers

/-- `Pos_0`. -/
def pos0 : Nat := 48

/-- `Carries_Type`; the first one is the lowest bit. -/
structure Carries where
  c0 : Nat
  c1 : Nat
  c2 : Nat
  c3 : Nat
  deriving DecidableEq

namespace Carries

/-- `No_Carries`. -/
def none : Carries := ⟨pos0, pos0, pos0, pos0⟩

/-- `Shr_Carries`. -/
def shr (c : Carries) : Carries := ⟨c.c1, c.c2, c.c3, pos0⟩

/-- `Add_One_To_Carries`. -/
def addOne (c : Carries) : Except BitFailure Carries :=
  if c.c0 = pos0 then .ok { c with c0 := pos0 + 1 }
  else if c.c1 = pos0 then .ok { c with c0 := pos0, c1 := pos0 + 1 }
  else if c.c2 = pos0 then .ok { c with c0 := pos0, c1 := pos0, c2 := pos0 + 1 }
  else if c.c3 = pos0 then .ok ⟨pos0, pos0, pos0, pos0 + 1⟩
  else .error .assertion

/-- An element is added, if it is set. -/
def addElement (c : Carries) (d : Nat) : Except BitFailure Carries := if d ≠ pos0 then c.addOne else .ok c

/-- The loop `Add_Four_To_Carries`, without an assertion. -/
def addFour (c : Carries) : Carries :=
  if c.c2 = pos0 then { c with c2 := pos0 + 1 }
  else if c.c3 = pos0 then { c with c2 := pos0, c3 := pos0 + 1 }
  else { c with c2 := pos0, c3 := pos0 }

/-- The bits of a digit. -/
def ofDigit (v : Nat) : Carries :=
  ⟨pos0 + (v - 2 * (v / 2)), pos0 + (v / 2 - 2 * (v / 2 / 2)), pos0 + (v / 2 / 2 - 2 * (v / 2 / 2 / 2)),
    pos0 + (v / 2 / 2 / 2 - 2 * (v / 2 / 2 / 2 / 2))⟩

end Carries

/-- `Append_Carries`: each carry is put in front. -/
def appendCarries : Nat → Carries → List Nat → List Nat
  | 0, _, string => string
  | fuel + 1, c, string => if c = .none then string else appendCarries fuel c.shr (c.c0 :: string)

/-- The loop that multiplies by ten, from the last element to the first one. -/
def mulDigits : List Nat → Except BitFailure (List Nat × Carries)
  | [] => .ok ([], .none)
  | d :: ds => do
    let (ds, c) ← mulDigits ds
    let shifted := c.shr
    if d ≠ pos0 then
      let added ← shifted.addOne
      .ok (c.c0 :: ds, added.addFour)
    else .ok (c.c0 :: ds, shifted)

/-- The loop that adds a digit, from the last element to the first one, and whether it has been left. -/
def addDigits (c : Carries) : List Nat → Except BitFailure (List Nat × Carries × Bool)
  | [] => .ok ([], c, false)
  | d :: ds => do
    let (ds, c, left) ← addDigits c ds
    if left then .ok (d :: ds, c, left)
    else do
      let c ← c.addElement d
      .ok (c.c0 :: ds, c.shr, c.shr = .none)

/-- What is done for a digit. -/
def appendDigit (s : BitScan) (v : Nat) : Except BitFailure BitScan := do
  let (ds, c) ← mulDigits s.string
  let (ds, c, _) ← addDigits (.ofDigit v) (appendCarries 4 c ds)
  let string := appendCarries 4 c ds
  .ok { s with string, length := string.length }

/-- The loop of `Scan_Dec_Bit_String`, with the character before `Pos`. -/
def scanDecBits : List Char → Char → BitScan → Except BitFailure BitScan
  | [], _, s => .ok (unterminated '"' [] [] s)
  | c :: cs, before, s =>
    if c = '"' then .ok { s with source := cs }
    else if c.isDigit then do
      let s ← appendDigit s (c.toNat - '0'.toNat)
      scanDecBits cs c s
    else if c = '_' then scanDecBits cs c (s.underscore '"' before (cs.headD eot))
    else if Graphic c then do
      let s ← appendDigit (s.error "graphic character not allowed in decimal bit string") 0
      scanDecBits cs c s
    else .ok (unterminated '"' [] (c :: cs) s)

/-- `Scan_Dec_Bit_String`, at the mark. -/
def scanDecBitString (source : List Char) : Except BitFailure BitScan :=
  if source.headD eot = '"' then scanDecBits source.tail '"' ⟨source.tail, .bitString, [], 0, []⟩ else .error .assertion

/-- The element of a string is a bit. -/
def IsBit (d : Nat) : Prop := d = pos0 ∨ d = pos0 + 1

/-- The number of a string of bits, the first one being the highest. -/
def valueOf : List Nat → Nat
  | [] => 0
  | d :: ds => (d - pos0) * 2 ^ ds.length + valueOf ds

/-- The string has the bits of the number, without a leading 0. -/
structure BitsOf (string : List Nat) (n : Nat) : Prop where
  bits : ∀ d ∈ string, IsBit d
  value : valueOf string = n
  leading : string.head? ≠ some pos0

/-- The number that is written behind another one. -/
def numberFrom (n : Nat) (body : List Char) : Nat :=
  (body.filter (· ≠ '_')).foldl (fun n c => n * 10 + (c.toNat - '0'.toNat)) n

namespace Carries

/-- The number in the carry. -/
def value (c : Carries) : Nat := c.c0 - pos0 + 2 * (c.c1 - pos0) + 4 * (c.c2 - pos0) + 8 * (c.c3 - pos0)

/-- The carry consists of bits. -/
def Bits (c : Carries) : Prop := IsBit c.c0 ∧ IsBit c.c1 ∧ IsBit c.c2 ∧ IsBit c.c3

variable {c : Carries}

theorem Bits.none_iff (bits : c.Bits) : c = none ↔ c.value = 0 := by
  obtain ⟨c0, c1, c2, c3⟩ := c
  obtain ⟨b0, b1, b2, b3⟩ := bits
  simp only [IsBit, none, value, mk.injEq] at *
  omega

theorem Bits.shr (bits : c.Bits) : c.shr.Bits ∧ c.shr.value = c.value / 2 ∧ c.c0 = pos0 + c.value % 2 := by
  obtain ⟨b0, b1, b2, b3⟩ := bits
  refine ⟨⟨b1, b2, b3, .inl rfl⟩, ?_⟩
  simp only [IsBit, Carries.shr, value] at *
  omega

theorem Bits.addOne (bits : c.Bits) (small : c.value < 15) :
    ∃ c', c.addOne = .ok c' ∧ c'.Bits ∧ c'.value = c.value + 1 := by
  obtain ⟨c0, c1, c2, c3⟩ := c
  obtain ⟨b0, b1, b2, b3⟩ := bits
  unfold Carries.addOne
  simp only [IsBit, value, Bits] at *
  split
  · refine ⟨_, rfl, ?_⟩
    dsimp only
    omega
  · split
    · refine ⟨_, rfl, ?_⟩
      dsimp only
      omega
    · split
      · refine ⟨_, rfl, ?_⟩
        dsimp only
        omega
      · rw [if_pos (by omega)]
        refine ⟨_, rfl, ?_⟩
        dsimp only
        omega

theorem Bits.addFour (bits : c.Bits) (small : c.value < 12) : c.addFour.Bits ∧ c.addFour.value = c.value + 4 := by
  obtain ⟨c0, c1, c2, c3⟩ := c
  obtain ⟨b0, b1, b2, b3⟩ := bits
  unfold Carries.addFour
  simp only [IsBit, value, Bits] at *
  split
  · constructor <;> dsimp only <;> omega
  · rw [if_pos (by omega)]
    constructor <;> dsimp only <;> omega

theorem ofDigit_bits {v : Nat} (digit : v ≤ 9) : (ofDigit v).Bits ∧ (ofDigit v).value = v := by
  simp only [ofDigit, Bits, IsBit, value, pos0]
  omega

end Carries

theorem IsBit.sub {d : Nat} (bit : IsBit d) : d - pos0 ≤ 1 := by
  unfold IsBit at bit
  omega

/-- Whether a string of bits starts with a 0 can be seen from its number. -/
theorem leading_iff {ds : List Nat} (bits : ∀ d ∈ ds, IsBit d) :
    valueOf ds < 2 ^ ds.length ∧ (ds.head? ≠ some pos0 ↔ ds = [] ∨ 2 ^ ds.length ≤ 2 * valueOf ds) := by
  induction ds with
  | nil => exact ⟨Nat.one_pos, iff_of_true nofun (.inl rfl)⟩
  | cons d ds ih =>
    obtain ⟨bit, bits⟩ := List.forall_mem_cons.mp bits
    have less := (ih bits).1
    rw [List.length_cons, pow_succ, valueOf]
    rcases bit with rfl | rfl
    · rw [Nat.sub_self, Nat.zero_mul]
      refine ⟨by omega, iff_of_false (fun other => other rfl) ?_⟩
      rintro (empty | large)
      · cases empty
      · omega
    · rw [Nat.add_sub_cancel_left, Nat.one_mul]
      exact ⟨by omega, iff_of_true nofun (.inr (by omega))⟩

/-- The carry after each element is at most 9, and no bit is lost. -/
theorem mulDigits_spec {ds : List Nat} (bits : ∀ d ∈ ds, IsBit d) : ∃ out c, mulDigits ds = .ok (out, c) ∧
    (∀ d ∈ out, IsBit d) ∧ out.length = ds.length ∧ c.Bits ∧ c.value ≤ 9 ∧
      valueOf out + 2 ^ ds.length * c.value = 10 * valueOf ds := by
  induction ds with
  | nil => exact ⟨[], .none, rfl, nofun, rfl, ⟨.inl rfl, .inl rfl, .inl rfl, .inl rfl⟩, by decide, rfl⟩
  | cons d ds ih =>
    obtain ⟨bit, bits⟩ := List.forall_mem_cons.mp bits
    obtain ⟨out, c, run, bitsOut, count, bitsC, small, total⟩ := ih bits
    obtain ⟨bitsS, valueS, low⟩ := bitsC.shr
    have bits' : ∀ d ∈ c.c0 :: out, IsBit d := List.forall_mem_cons.mpr ⟨bitsC.1, bitsOut⟩
    have halves := Nat.mod_add_div c.value 2
    -- the new carry is half of the last one, and five for a bit that is set
    have sum : ∀ carry, carry = c.value / 2 + 5 * (d - pos0) →
        valueOf (c.c0 :: out) + 2 ^ (d :: ds).length * carry = 10 * valueOf (d :: ds) := by
      intro carry isCarry
      have lowest : c.c0 - pos0 = c.value % 2 := by omega
      rw [valueOf, valueOf, lowest, count, List.length_cons, isCarry]
      rw [← halves] at total
      calc c.value % 2 * 2 ^ ds.length + valueOf out + 2 ^ (ds.length + 1) * (c.value / 2 + 5 * (d - pos0))
          = valueOf out + 2 ^ ds.length * (c.value % 2 + 2 * (c.value / 2)) + 10 * ((d - pos0) * 2 ^ ds.length) := by ring
        _ = 10 * ((d - pos0) * 2 ^ ds.length + valueOf ds) := by rw [total, Nat.mul_add, Nat.add_comm]
    unfold mulDigits
    rw [run]
    dsimp only [bind, Except.bind]
    by_cases zero : d = pos0
    · rw [if_neg (not_not.mpr zero)]
      refine ⟨_, _, rfl, bits', by rw [List.length_cons, List.length_cons, count], bitsS, by omega, sum _ ?_⟩
      rw [valueS, zero, Nat.sub_self, Nat.mul_zero, Nat.add_zero]
    obtain rfl := bit.resolve_left zero
    obtain ⟨c₁, run₁, bits₁, value₁⟩ := bitsS.addOne (by omega)
    obtain ⟨bits₂, value₂⟩ := bits₁.addFour (by omega)
    rw [if_pos zero, run₁]
    refine ⟨_, _, rfl, bits', by rw [List.length_cons, List.length_cons, count], bits₂, by omega, sum _ ?_⟩
    omega

/-- The carry after each element is at most 9. -/
theorem addDigits_spec {c : Carries} (bitsC : c.Bits) (small : c.value ≤ 9) {ds : List Nat} (bits : ∀ d ∈ ds, IsBit d) :
    ∃ out c' left, addDigits c ds = .ok (out, c', left) ∧ (∀ d ∈ out, IsBit d) ∧ out.length = ds.length ∧ c'.Bits ∧
      c'.value ≤ 9 ∧ (left = true → c'.value = 0) ∧ valueOf out + 2 ^ ds.length * c'.value = valueOf ds + c.value := by
  induction ds with
  | nil => exact ⟨[], c, false, rfl, nofun, rfl, bitsC, small, nofun, by simp [valueOf]⟩
  | cons d ds ih =>
    obtain ⟨bit, bits⟩ := List.forall_mem_cons.mp bits
    obtain ⟨out, c₁, left, run, bitsOut, count, bits₁, small₁, ended, total⟩ := ih bits
    have length : (d :: out).length = (d :: ds).length := congrArg (· + 1) count
    unfold addDigits
    rw [run]
    dsimp only [bind, Except.bind]
    by_cases isLeft : left = true
    · rw [if_pos isLeft]
      refine ⟨d :: out, c₁, left, rfl, List.forall_mem_cons.mpr ⟨bit, bitsOut⟩, length, bits₁, small₁, ended, ?_⟩
      rw [ended isLeft, Nat.mul_zero, Nat.add_zero] at total ⊢
      rw [valueOf, valueOf, count, total, Nat.add_assoc]
    rw [if_neg isLeft]
    -- the carry with the element added
    have added : ∃ c₂, c₁.addElement d = .ok c₂ ∧ c₂.Bits ∧ c₂.value = c₁.value + (d - pos0) := by
      unfold Carries.addElement
      by_cases zero : d = pos0
      · rw [if_neg (not_not.mpr zero), zero, Nat.sub_self]
        exact ⟨c₁, rfl, bits₁, rfl⟩
      · rw [if_pos zero, bit.resolve_left zero, Nat.add_sub_cancel_left]
        exact bits₁.addOne (by omega)
    obtain ⟨c₂, run₂, bits₂, value₂⟩ := added
    obtain ⟨bitsS, valueS, low⟩ := bits₂.shr
    have one := bit.sub
    rw [run₂]
    refine ⟨_, _, _, rfl, List.forall_mem_cons.mpr ⟨bits₂.1, bitsOut⟩, length, bitsS, by omega, fun last => ?_, ?_⟩
    · exact bitsS.none_iff.mp (of_decide_eq_true last)
    have halves := Nat.mod_add_div c₂.value 2
    have lowest : c₂.c0 - pos0 = c₂.value % 2 := by omega
    rw [valueOf, valueOf, lowest, count, List.length_cons, valueS]
    calc c₂.value % 2 * 2 ^ ds.length + valueOf out + 2 ^ (ds.length + 1) * (c₂.value / 2)
        = valueOf out + 2 ^ ds.length * (c₂.value % 2 + 2 * (c₂.value / 2)) := by ring
      _ = valueOf out + 2 ^ ds.length * c₁.value + (d - pos0) * 2 ^ ds.length := by rw [halves, value₂]; ring
      _ = (d - pos0) * 2 ^ ds.length + valueOf ds + c.value := by rw [total]; ring

theorem appendCarries_spec {fuel : Nat} {c : Carries} (bitsC : c.Bits) (small : c.value < 2 ^ fuel) {ds : List Nat}
    (bits : ∀ d ∈ ds, IsBit d) (leading : 0 < c.value ∨ ds.head? ≠ some pos0) :
    BitsOf (appendCarries fuel c ds) (c.value * 2 ^ ds.length + valueOf ds) := by
  induction fuel generalizing c ds with
  | zero =>
    have none : c.value = 0 := by omega
    rw [none, Nat.zero_mul, Nat.zero_add]
    exact ⟨bits, rfl, leading.resolve_left (by omega)⟩
  | succ fuel ih =>
    obtain ⟨bitsS, valueS, low⟩ := bitsC.shr
    unfold appendCarries
    by_cases none : c = .none
    · have none' := bitsC.none_iff.mp none
      rw [if_pos none, none', Nat.zero_mul, Nat.zero_add]
      exact ⟨bits, rfl, leading.resolve_left (by omega)⟩
    have positive : c.value ≠ 0 := fun zero => none (bitsC.none_iff.mpr zero)
    rw [pow_succ] at small
    have leading' : 0 < c.shr.value ∨ (c.c0 :: ds).head? ≠ some pos0 := by
      by_cases more : 0 < c.shr.value
      · exact .inl more
      · refine .inr fun same => ?_
        have zero : c.c0 = pos0 := Option.some.inj same
        omega
    have front := ih bitsS (by omega) (List.forall_mem_cons.mpr ⟨bitsC.1, bits⟩) leading'
    have halves := Nat.mod_add_div c.value 2
    have lowest : c.c0 - pos0 = c.value % 2 := by omega
    have same : c.shr.value * 2 ^ (c.c0 :: ds).length + valueOf (c.c0 :: ds) = c.value * 2 ^ ds.length + valueOf ds := by
      rw [valueOf, lowest, valueS, List.length_cons]
      calc c.value / 2 * 2 ^ (ds.length + 1) + (c.value % 2 * 2 ^ ds.length + valueOf ds)
          = (c.value % 2 + 2 * (c.value / 2)) * 2 ^ ds.length + valueOf ds := by ring
        _ = c.value * 2 ^ ds.length + valueOf ds := by rw [halves]
    rw [if_neg none]
    exact same ▸ front

/-- What is left of the carry is put in front, where the elements without it start with a 0 at most for it. -/
theorem appendCarries_total {c : Carries} {ds out : List Nat} {m : Nat} (bits : ∀ d ∈ out, IsBit d)
    (count : out.length = ds.length) (bitsC : c.Bits) (small : c.value ≤ 9)
    (total : valueOf out + 2 ^ ds.length * c.value = m) (leading : ds = [] ∨ 2 ^ ds.length ≤ 2 * m) :
    BitsOf (appendCarries 4 c out) m := by
  have leading' : 0 < c.value ∨ out.head? ≠ some pos0 := by
    by_cases more : 0 < c.value
    · exact .inl more
    have none : c.value = 0 := by omega
    rw [none, Nat.mul_zero, Nat.add_zero] at total
    refine .inr ((leading_iff bits).2.mpr ?_)
    rw [count, total]
    refine leading.imp_left fun empty => ?_
    rw [empty] at count
    exact List.length_eq_zero_iff.mp count
  have appended := @appendCarries_spec 4 c bitsC (by omega) out bits leading'
  rwa [count, Nat.mul_comm, Nat.add_comm, total] at appended

/-- A digit is appended to the number. -/
theorem appendDigit_spec {s : BitScan} {n v : Nat} (holds : BitsOf s.string n) (digit : v ≤ 9) :
    ∃ string, appendDigit s v = .ok { s with string, length := string.length } ∧ BitsOf string (n * 10 + v) := by
  obtain ⟨out, c, run, bits, count, bitsC, small, total⟩ := mulDigits_spec holds.bits
  have leading := (leading_iff holds.bits).2.mp holds.leading
  rw [holds.value] at total leading
  have times := appendCarries_total bits count bitsC small total (leading.imp_right fun large => by omega)
  obtain ⟨bitsV, valueV⟩ := Carries.ofDigit_bits digit
  obtain ⟨out', c', left, run', bits', count', bitsC', small', -, total'⟩ :=
    addDigits_spec bitsV (valueV.trans_le digit) times.bits
  have leading' := (leading_iff times.bits).2.mp times.leading
  rw [times.value, valueV, Nat.mul_comm 10 n] at total'
  rw [times.value] at leading'
  refine ⟨_, ?_, appendCarries_total bits' count' bitsC' small' total' (leading'.imp_right fun large => by omega)⟩
  unfold appendDigit
  rw [run]
  dsimp only [bind, Except.bind]
  rw [run']

theorem digit_le {c : Char} (digit : c.isDigit = true) : c.toNat - '0'.toNat ≤ 9 ∧ c ≠ '"' ∧ c ≠ '_' := by
  have high : c.toNat ≤ 57 := of_decide_eq_true (Bool.and_eq_true_iff.mp digit).2
  have zero : '0'.toNat = 48 := rfl
  refine ⟨by omega, ?_, ?_⟩ <;> rintro rfl <;> cases digit

theorem numberFrom_digit {c : Char} (digit : c.isDigit = true) (n : Nat) (cs : List Char) :
    numberFrom n (c :: cs) = numberFrom (n * 10 + (c.toNat - '0'.toNat)) cs := by
  unfold numberFrom
  rw [List.filter_cons_of_pos (by simpa using (digit_le digit).2.2)]
  rfl

theorem scanDecBits_digit {c before : Char} {cs : List Char} {s : BitScan} {n : Nat} (digit : c.isDigit = true)
    (holds : BitsOf s.string n) : ∃ string, BitsOf string (n * 10 + (c.toNat - '0'.toNat)) ∧
      scanDecBits (c :: cs) before s = scanDecBits cs c { s with string, length := string.length } := by
  obtain ⟨string, run, holds'⟩ := appendDigit_spec holds (digit_le digit).1
  refine ⟨string, holds', ?_⟩
  rw [scanDecBits, if_neg (digit_le digit).2.1, if_pos digit, run]
  rfl

/-- The loop over the rest of a literal. -/
theorem scanDecBits_value {body rest : List Char} (literal : Underscored Char.isDigit body) {before : Char} {s : BitScan}
    {n : Nat} (holds : BitsOf s.string n) : ∃ string, BitsOf string (numberFrom n body) ∧
      scanDecBits (body ++ '"' :: rest) before s =
        .ok { s with source := rest, string, length := string.length } := by
  induction literal generalizing before s n with
  | @single c digit =>
    obtain ⟨string, holds', step⟩ := @scanDecBits_digit c before ('"' :: rest) s n digit holds
    exact ⟨string, numberFrom_digit digit n [] ▸ holds', step.trans rfl⟩
  | @digit c cs digit _ ih =>
    obtain ⟨string, holds', step⟩ := @scanDecBits_digit c before (cs ++ '"' :: rest) s n digit holds
    obtain ⟨string', holds'', result⟩ := @ih c { s with string, length := string.length } _ holds'
    exact ⟨string', numberFrom_digit digit n cs ▸ holds'', step.trans result⟩
  | @underscore c cs digit inner ih =>
    obtain ⟨string, holds', step⟩ := @scanDecBits_digit c before ('_' :: cs ++ '"' :: rest) s n digit holds
    obtain ⟨string', holds'', result⟩ := @ih '_' { s with string, length := string.length } _ holds'
    obtain ⟨d, ds, rfl, next⟩ := inner.head
    refine ⟨string', numberFrom_digit digit n ('_' :: d :: ds) ▸ holds'', step.trans (Eq.trans ?_ result)⟩
    show scanDecBits (d :: ds ++ '"' :: rest) '_' (BitScan.underscore _ '"' c d) = _
    unfold BitScan.underscore
    rw [if_neg (digit_le next).2.2, if_neg (digit_le digit).2.1, if_neg (digit_le next).2.1]

/-- The bit string of a decimal literal denotes the number that is written. On the way, for the bits of any number, no
assertion on the carry fails and no bit of it is lost: it is at most 9, and what it holds is what the elements lack. -/
theorem scanDecBitString_value (body rest : List Char) (literal : body = [] ∨ Underscored Char.isDigit body) :
    (∃ string, scanDecBitString ('"' :: (body ++ '"' :: rest)) = .ok ⟨rest, .bitString, string, string.length, []⟩ ∧
      BitsOf string (numberFrom 0 body) ∧ (numberFrom 0 body = 0 → string = [])) ∧
    (∀ ds, (∀ d ∈ ds, IsBit d) → ∃ out c, mulDigits ds = .ok (out, c) ∧ c.Bits ∧ c.value ≤ 9 ∧
      valueOf out + 2 ^ ds.length * c.value = 10 * valueOf ds) ∧
    ∀ ds v, (∀ d ∈ ds, IsBit d) → v ≤ 9 → ∃ out c left, addDigits (.ofDigit v) ds = .ok (out, c, left) ∧ c.Bits ∧
      c.value ≤ 9 ∧ valueOf out + 2 ^ ds.length * c.value = valueOf ds + v := by
  have empty : BitsOf [] 0 := ⟨nofun, rfl, nofun⟩
  refine ⟨?_, fun ds bits => ?_, fun ds v bits digit => ?_⟩
  · have scanned : ∃ string, BitsOf string (numberFrom 0 body) ∧
        scanDecBitString ('"' :: (body ++ '"' :: rest)) = .ok ⟨rest, .bitString, string, string.length, []⟩ := by
      rcases literal with rfl | literal
      · exact ⟨[], empty, rfl⟩
      · exact @scanDecBits_value body rest literal '"' ⟨body ++ '"' :: rest, .bitString, [], 0, []⟩ 0 empty
    obtain ⟨string, holds, run⟩ := scanned
    refine ⟨string, run, holds, fun zero => ?_⟩
    rcases (leading_iff holds.bits).2.mp holds.leading with none | large
    · exact none
    · have positive := Nat.two_pow_pos string.length
      rw [holds.value, zero] at large
      omega
  · obtain ⟨out, c, run, -, -, bitsC, small, total⟩ := mulDigits_spec bits
    exact ⟨out, c, run, bitsC, small, total⟩
  · obtain ⟨bitsV, valueV⟩ := Carries.ofDigit_bits digit
    obtain ⟨out, c, left, run, -, -, bitsC, small, -, total⟩ := addDigits_spec bitsV (valueV.trans_le digit) bits
    exact ⟨out, c, left, run, bitsC, small, valueV ▸ total⟩

/-- `D"1_0"`. -/
theorem scanDecBitString_value_ten : ∃ string, scanDecBitString ['"', '1', '_', '0', '"'] =
      .ok ⟨[], .bitString, string, string.length, []⟩ ∧ BitsOf string 10 := by
  obtain ⟨string, run, holds, -⟩ := (scanDecBitString_value ['1', '_', '0'] []
    (.inr (.underscore rfl (.single rfl)))).1
  exact ⟨string, run, holds⟩

end Ghdl.Vhdl
