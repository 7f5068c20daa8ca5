import Ghdl.Text.Values

/-!
# Values of images

The value of the image of a value is that value, also with blanks around it, except for names with upper-case
letters: `String_Match` folds the case of every name but the character literals, so an extended identifier that
has an upper-case letter is not found, or another literal is found in its place.
-/

namespace Ghdl.Text

variable {s : StringBase} {pos len count : Nat} {l core before after name ref : List Char} {c : Char}

/-- The string has these characters from POS on. -/
def At (s : StringBase) (pos : Nat) (l : List Char) : Prop := ∀ i c, l[i]? = some c → s (pos + i) = c

theorem At.head (holds : At s pos (c :: l)) : s pos = c := holds 0 c rfl

theorem At.tail (holds : At s pos (c :: l)) : At s (pos + 1) l := fun i d inside => by
  have next := holds (i + 1) d inside
  rwa [Nat.add_comm i 1, ← Nat.add_assoc] at next

theorem At.left (holds : At s pos (l ++ core)) : At s pos l := fun i d inside =>
  holds i d ((List.getElem?_append_left (List.getElem?_eq_some_iff.mp inside).1).trans inside)

theorem At.right (holds : At s pos (l ++ core)) : At s (pos + l.length) core := fun i d inside => by
  rw [Nat.add_assoc]
  refine holds _ d ?_
  rw [List.getElem?_append_right (Nat.le_add_right _ _), Nat.add_sub_cancel_left]
  exact inside

/-- The characters are blanks. -/
def Blank (l : List Char) : Prop := ∀ c ∈ l, isWhitespace c = true

instance (l : List Char) : Decidable (Blank l) := List.decidableBAll (fun c => isWhitespace c = true) l

variable (count) in
theorem skipLeading_blanks (holds : At s pos (before ++ c :: l)) (blank : Blank before)
    (visible : isWhitespace c = false) (enough : before.length ≤ count) :
    skipLeading s count pos = pos + before.length := by
  induction before generalizing pos count with
  | nil =>
    cases count with
    | zero => rfl
    | succ count =>
      unfold skipLeading
      rw [holds.head, visible]
      rfl
  | cons b before ih =>
    cases count with
    | zero => exact absurd enough (Nat.not_succ_le_zero _)
    | succ count =>
      have first : isWhitespace (s pos) = true := by
        rw [At.head holds]
        exact blank b List.mem_cons_self
      unfold skipLeading
      rw [first, if_pos rfl,
        ih count (At.tail holds) (fun c inside => blank c (List.mem_cons_of_mem b inside)) (Nat.le_of_succ_le_succ enough),
        List.length_cons]
      omega

theorem skipTrailing_blanks {fin : Nat} (holds : At s (fin + 1) after) (blank : Blank after)
    (visible : isWhitespace (s fin) = false) (start : pos ≤ fin) :
    skipTrailing s pos (fin + 1 + after.length) = fin + 1 := by
  induction after using List.reverseRecOn with
  | nil =>
    show skipTrailing s pos (fin + 1) = fin + 1
    unfold skipTrailing
    rw [visible]
    simp
  | append_singleton after b ih =>
    have last : isWhitespace (s (fin + 1 + after.length)) = true := by
      rw [At.head (At.right holds)]
      exact blank b (List.mem_append_right _ (List.mem_singleton.mpr rfl))
    rw [List.length_append, List.length_singleton, ← Nat.add_assoc]
    unfold skipTrailing
    rw [if_pos ⟨by omega, last⟩]
    exact ih (At.left holds) fun c inside => blank c (List.mem_append_left _ inside)

/-- The first and the last characters of a string are no blanks. -/
structure Trimmed (l : List Char) : Prop where
  first : ∃ c m, l = c :: m ∧ isWhitespace c = false
  last : ∃ c m, l = m ++ [c] ∧ isWhitespace c = false

theorem removeWhitespaces_spec (holds : At s 0 (before ++ core ++ after)) (blankBefore : Blank before)
    (blankAfter : Blank after) (trimmed : Trimmed core) :
    removeWhitespaces s (before ++ core ++ after).length 0 = .ok (before.length + core.length, before.length) := by
  obtain ⟨c, m, isFirst, visible⟩ := trimmed.first
  obtain ⟨d, m', isLast, visible'⟩ := trimmed.last
  have leading : skipLeading s (before ++ core ++ after).length 0 = before.length := by
    rw [List.append_assoc, isFirst, List.cons_append] at holds
    have skipped := skipLeading_blanks (before ++ core ++ after).length holds blankBefore visible
      (by rw [List.append_assoc, List.length_append]; exact Nat.le_add_right _ _)
    rwa [Nat.zero_add] at skipped
  have lastAt : s (before.length + m'.length) = d := by
    have inside := At.right (At.left holds)
    rw [isLast, Nat.zero_add] at inside
    exact (At.right inside).head
  have length : core.length = m'.length + 1 := by rw [isLast, List.length_append]; rfl
  have behind : At s (before.length + m'.length + 1) after := by
    have all := At.right holds
    rwa [List.length_append, length, Nat.zero_add, ← Nat.add_assoc] at all
  have trailing : skipTrailing s before.length (before ++ core ++ after).length = before.length + core.length := by
    rw [List.length_append, List.length_append, length, ← Nat.add_assoc]
    exact skipTrailing_blanks behind blankAfter (lastAt ▸ visible') (Nat.le_add_right _ _)
  unfold removeWhitespaces
  rw [Nat.sub_zero, leading]
  dsimp only
  rw [trailing, if_neg (by omega)]

/-- A name as `String_Match` reads it. -/
def folded (name : CString) : CString := if name.head? = some '\'' then name else name.map toLower

theorem matchLoop_iff {isChar : Bool} (holds : At s pos core) :
    matchLoop s isChar core.length pos ref = true ↔ ref = if isChar then core else core.map toLower := by
  induction core generalizing pos ref with
  | nil => cases isChar <;> simp [matchLoop]
  | cons c core ih =>
    cases ref with
    | nil => cases isChar <;> simp [matchLoop]
    | cons r ref =>
      have rest : matchLoop s isChar core.length (pos + 1) ref = true ↔
          ref = if isChar then core else core.map toLower := ih holds.tail
      show (if (if isChar = true then s pos else toLower (s pos)) ≠ r then false
        else matchLoop s isChar core.length (pos + 1) ref) = true ↔ _
      rw [holds.head]
      cases isChar with
      | true =>
        simp only [if_true] at rest ⊢
        by_cases same : c = r
        · simp [same, rest]
        · simp [same, Ne.symm same]
      | false =>
        simp only [if_false, Bool.false_eq_true] at rest ⊢
        by_cases same : toLower c = r
        · simp [same, rest]
        · simp [same, Ne.symm same]

theorem stringMatch_iff (holds : At s pos core) (some : core ≠ []) :
    stringMatch s pos (pos + core.length) ref = true ↔ ref = folded core := by
  obtain ⟨c, rest, rfl⟩ := List.exists_cons_of_ne_nil some
  unfold stringMatch folded
  rw [Nat.add_sub_cancel_left, matchLoop_iff holds, holds.head]
  simp

/-- The characters are the decimal digits of numbers, and the number that they accumulate to, negatively. -/
def Digits (l : List Char) (val : Int) : Prop :=
  l ≠ [] ∧ (∀ c ∈ l, isDigit c = true) ∧ l.foldl (fun val c => val * 10 - digit c) 0 = val

theorem digit_ofNat {d : Nat} (small : d < 10) :
    isDigit (Char.ofNat (48 + d)) = true ∧ digit (Char.ofNat (48 + d)) = d := by
  have cases : d = 0 ∨ d = 1 ∨ d = 2 ∨ d = 3 ∨ d = 4 ∨ d = 5 ∨ d = 6 ∨ d = 7 ∨ d = 8 ∨ d = 9 := by omega
  rcases cases with rfl | rfl | rfl | rfl | rfl | rfl | rfl | rfl | rfl | rfl <;> decide

variable {k : Nat}

/-- The loop of `To_String` writes the digits of the number in front. -/
theorem toStringLoop_spec (room : Nat) (n : Nat) (l : List Char) (small : n < 10 ^ (k + 1)) (enough : k < room) :
    ∃ m, toStringLoop room (-(n : Int)) l = some (m ++ l) ∧ Digits m (-(n : Int)) ∧ m.length ≤ k + 1 := by
  induction room generalizing n l k with
  | zero => exact absurd enough (Nat.not_lt_zero k)
  | succ room ih =>
    have remainder : (-(n : Int)).tmod 10 = -((n % 10 : Nat) : Int) := by
      rw [Int.neg_tmod, Int.tmod_eq_emod_of_nonneg (Int.natCast_nonneg n)]
      rfl
    have quotient : (-(n : Int)).tdiv 10 = -((n / 10 : Nat) : Int) := by
      rw [Int.neg_tdiv, Int.tdiv_eq_ediv_of_nonneg (Int.natCast_nonneg n)]
      rfl
    have char : (48 - (-(n : Int)).tmod 10).toNat = 48 + n % 10 := by
      rw [remainder]
      omega
    obtain ⟨isDigit', digit'⟩ := digit_ofNat (Nat.mod_lt n (by decide : 0 < 10))
    unfold toStringLoop
    rw [char, quotient]
    by_cases last : n / 10 = 0
    · refine ⟨[Char.ofNat (48 + n % 10)], ?_, ⟨List.cons_ne_nil _ _, ?_, ?_⟩, Nat.succ_le_succ (Nat.zero_le k)⟩
      · simp [last]
      · intro c inside
        rw [List.mem_singleton.mp inside]
        exact isDigit'
      · show 0 * 10 - digit (Char.ofNat (48 + n % 10)) = _
        rw [digit']
        omega
    obtain ⟨k, rfl⟩ : ∃ j, k = j + 1 := by
      cases k with
      | zero => omega
      | succ k => exact ⟨k, rfl⟩
    have smaller : n / 10 < 10 ^ (k + 1) := by
      rw [Nat.pow_succ] at small
      exact Nat.div_lt_of_lt_mul (by omega)
    obtain ⟨m, written, ⟨nonempty, digits, value⟩, length⟩ :=
      ih (n / 10) (Char.ofNat (48 + n % 10) :: l) smaller (Nat.lt_of_succ_lt_succ enough)
    refine ⟨m ++ [Char.ofNat (48 + n % 10)], ?_, ⟨by simp, ?_, ?_⟩, ?_⟩
    · have more : -((n / 10 : Nat) : Int) ≠ 0 := by omega
      dsimp only
      rw [if_neg more, written, List.append_assoc]
      rfl
    · intro c inside
      rcases List.mem_append.mp inside with inside | inside
      · exact digits c inside
      · rw [List.mem_singleton.mp inside]
        exact isDigit'
    · rw [List.foldl_append, value]
      show -((n / 10 : Nat) : Int) * 10 - digit (Char.ofNat (48 + n % 10)) = _
      rw [digit']
      omega
    · rw [List.length_append]
      exact Nat.succ_le_succ length

variable {n : Int}

theorem toString_spec {length : Nat} (small : n.natAbs < 10 ^ (k + 1)) (room : k + 1 < length) :
    ∃ m, toString length n = some (if n < 0 then '-' :: m else m) ∧ Digits m (-(n.natAbs : Int)) := by
  obtain ⟨m, written, digits, bound⟩ := toStringLoop_spec length n.natAbs [] small (Nat.lt_of_succ_lt room)
  refine ⟨m, ?_, digits⟩
  have magnitude : (if 0 < n then -n else n) = -(n.natAbs : Int) := by
    split <;> omega
  unfold toString
  dsimp only
  rw [magnitude, written, List.append_nil]
  by_cases negative : n < 0
  · have fits : m.length < length := by omega
    simp [negative, fits]
  · simp [negative]

theorem isDigit_visible (isDigit' : isDigit c = true) : isWhitespace c = false := by
  have bounds : '0' ≤ c ∧ c ≤ '9' := by simpa [isDigit] using isDigit'
  have low : '0'.toNat ≤ c.toNat := bounds.1
  have high : c.toNat ≤ '9'.toNat := bounds.2
  have notSpace : c ≠ ' ' := by
    rintro rfl
    exact absurd low (by decide)
  have notNbsp : c ≠ Char.ofNat 160 := by
    rintro rfl
    exact absurd high (by decide)
  have notTab : c ≠ Char.ofNat 9 := by
    rintro rfl
    exact absurd low (by decide)
  simp [isWhitespace, notSpace, notNbsp, notTab]

theorem digitsLoop_spec (fuel : Nat) {stops : Char → Bool} (val : Int) (holds : At s pos (c :: l))
    (digits : ∀ d ∈ c :: l, isDigit d = true) (enough : (c :: l).length ≤ fuel)
    (step : Int → Int → Int) (notStop : ∀ d, isDigit d = true → stops d = false) :
    ∃ d, digitsLoop s (pos + (c :: l).length) step stops fuel pos c val =
      .ok (pos + (c :: l).length, d, (c :: l).foldl (fun val d => step val (digit d)) val) := by
  induction l generalizing pos c val fuel with
  | nil =>
    cases fuel with
    | zero => exact absurd enough (Nat.not_succ_le_zero _)
    | succ fuel =>
      refine ⟨c, ?_⟩
      unfold digitsLoop
      rw [digits c List.mem_cons_self]
      simp
  | cons d l ih =>
    cases fuel with
    | zero => exact absurd enough (Nat.not_succ_le_zero _)
    | succ fuel =>
      have isNext := digits d (List.mem_cons_of_mem c List.mem_cons_self)
      obtain ⟨e, result⟩ := ih fuel (step val (digit c)) holds.tail
        (fun d inside => digits d (List.mem_cons_of_mem c inside)) (Nat.le_of_succ_le_succ enough)
      refine ⟨e, ?_⟩
      have length : pos + (c :: d :: l).length = pos + 1 + (d :: l).length := by
        show pos + ((d :: l).length + 1) = _
        omega
      rw [length]
      unfold digitsLoop
      dsimp only
      rw [digits c List.mem_cons_self, holds.tail.head]
      have inside : ¬pos + 1 + (d :: l).length ≤ pos + 1 := by
        rw [List.length_cons]
        omega
      have notUnderscore : d ≠ '_' := by
        rintro rfl
        exact absurd isNext (by decide)
      have notBlank : isWhitespace d = false := isDigit_visible isNext
      simp only [inside, notUnderscore, notStop d isNext, notBlank, if_true, if_false, Bool.false_eq_true]
      exact result

theorem wrap_64 (low : -2 ^ 63 ≤ n) (high : n < 2 ^ 63) : wrap 64 n = n := by
  exact Int.bmod_eq_of_le (by omega) (by omega)

theorem wrap_32 (low : -2 ^ 31 ≤ n) (high : n < 2 ^ 31) : wrap 32 n = n := by
  exact Int.bmod_eq_of_le (by omega) (by omega)

theorem digit_bounds (isDigit' : isDigit c = true) : 0 ≤ digit c ∧ digit c ≤ 9 := by
  have bounds : '0' ≤ c ∧ c ≤ '9' := by simpa [isDigit] using isDigit'
  have low : '0'.toNat ≤ c.toNat := bounds.1
  have high : c.toNat ≤ '9'.toNat := bounds.2
  have zero : '0'.toNat = 48 := rfl
  have nine : '9'.toNat = 57 := rfl
  unfold digit
  omega

/-- Digits only make a number that is not positive less. -/
theorem foldl_le {val : Int} (digits : ∀ c ∈ l, isDigit c = true) (nonpositive : val ≤ 0) :
    l.foldl (fun val c => val * 10 - digit c) val ≤ val := by
  induction l generalizing val with
  | nil => exact Int.le_refl val
  | cons c l ih =>
    have bounds := digit_bounds (digits c List.mem_cons_self)
    have less : val * 10 - digit c ≤ val := by omega
    have next : val * 10 - digit c ≤ 0 := by omega
    exact Int.le_trans (ih (fun d inside => digits d (List.mem_cons_of_mem c inside)) next) less

theorem foldl_accumulate {val : Int} (digits : ∀ c ∈ l, isDigit c = true) (nonpositive : val ≤ 0)
    (fits : -2 ^ 63 ≤ l.foldl (fun val c => val * 10 - digit c) val) :
    l.foldl (fun val c => accumulate val (digit c)) val = l.foldl (fun val c => val * 10 - digit c) val := by
  induction l generalizing val with
  | nil => rfl
  | cons c l ih =>
    have bounds := digit_bounds (digits c List.mem_cons_self)
    have rest : ∀ d ∈ l, isDigit d = true := fun d inside => digits d (List.mem_cons_of_mem c inside)
    have low : -2 ^ 63 ≤ val * 10 - digit c := by
      have next : val * 10 - digit c ≤ 0 := by omega
      exact Int.le_trans fits (foldl_le rest next)
    have exact_ : accumulate val (digit c) = val * 10 - digit c := by
      unfold accumulate
      rw [wrap_64 (n := val * 10) (by omega) (by omega), wrap_64 low (by omega)]
    rw [List.foldl_cons, List.foldl_cons, exact_]
    exact ih rest (by omega) fits

theorem valueI64_spec {m : List Char} (low : -2 ^ 63 ≤ n) (high : n < 2 ^ 63)
    (digits : Digits m (-(n.natAbs : Int))) (holds : At s pos (if n < 0 then '-' :: m else m)) :
    valueI64 s (pos + (if n < 0 then '-' :: m else m).length) pos = .ok n := by
  obtain ⟨nonempty, areDigits, value⟩ := digits
  obtain ⟨c, l, rfl⟩ := List.exists_cons_of_ne_nil nonempty
  have accumulated := foldl_accumulate areDigits (Int.le_refl 0) (by rw [value]; omega)
  rw [value] at accumulated
  have notStop : ∀ d, isDigit d = true → (d = '#' || d = ':' || d = 'E' || d = 'e') = false := by
    intro d isDigit'
    have notHash : d ≠ '#' := by rintro rfl; exact absurd isDigit' (by decide)
    have notColon : d ≠ ':' := by rintro rfl; exact absurd isDigit' (by decide)
    have notUpper : d ≠ 'E' := by rintro rfl; exact absurd isDigit' (by decide)
    have notLower : d ≠ 'e' := by rintro rfl; exact absurd isDigit' (by decide)
    simp [notHash, notColon, notUpper, notLower]
  unfold valueI64
  by_cases negative : n < 0
  · rw [if_pos negative] at holds ⊢
    have sign : valueSign s (pos + ('-' :: c :: l).length) pos = .ok (true, pos + 1) := by
      have inside : pos ≠ pos + ('-' :: c :: l).length := by simp
      unfold valueSign
      rw [holds.head, if_pos (.inr rfl), if_neg inside]
      rfl
    have length : pos + ('-' :: c :: l).length = pos + 1 + (c :: l).length := by
      show pos + ((c :: l).length + 1) = _
      omega
    obtain ⟨d, read⟩ := digitsLoop_spec (pos + 1 + (c :: l).length) 0 holds.tail areDigits
      (Nat.le_add_left _ _) accumulate notStop
    rw [sign]
    show (digitsLoop s _ accumulate _ _ (pos + 1) (s (pos + 1)) 0 >>= _) = _
    rw [length, holds.tail.head, read]
    show (if _ then _ else _ : Outcome Int) = _
    rw [if_pos (Nat.le_refl _)]
    show Except.ok _ = Except.ok n
    rw [if_pos rfl, accumulated]
    exact congrArg Except.ok (by omega)
  rw [if_neg negative] at holds ⊢
  have isFirst := areDigits c List.mem_cons_self
  have notPlus : c ≠ '+' := by rintro rfl; exact absurd isFirst (by decide)
  have notMinus : c ≠ '-' := by rintro rfl; exact absurd isFirst (by decide)
  have sign : valueSign s (pos + (c :: l).length) pos = .ok (false, pos) := by
    unfold valueSign
    rw [holds.head, if_neg (by simp [notPlus, notMinus])]
  obtain ⟨d, read⟩ := digitsLoop_spec (pos + (c :: l).length) 0 holds areDigits
    (Nat.le_add_left _ _) accumulate notStop
  rw [sign]
  show (digitsLoop s _ accumulate _ _ pos (s pos) 0 >>= _) = _
  rw [holds.head, read]
  show (if _ then _ else _ : Outcome Int) = _
  rw [if_pos (Nat.le_refl _)]
  show Except.ok _ = Except.ok n
  rw [accumulated]
  have magnitude : -(-(n.natAbs : Int)) = n := by omega
  simp only [Bool.false_eq_true, if_false]
  rw [magnitude, wrap_64 low high]

/-- A character of the identifiers of the types: no upper-case letter is left in them. -/
def IsIdentifierChar (c : Char) : Prop := ('a' ≤ c ∧ c ≤ 'z') ∨ ('0' ≤ c ∧ c ≤ '9') ∨ c = '_' ∨ 192 ≤ c.toNat

/-- An identifier. -/
def IsIdentifier (name : CString) : Prop := name ≠ [] ∧ ∀ c ∈ name, IsIdentifierChar c

/-- An extended identifier. -/
def IsExtended (name : CString) : Prop := ∃ body, name = '\\' :: (body ++ ['\\'])

/-- A character literal. -/
def IsCharacter (name : CString) : Prop := ∃ c, name = ['\'', c, '\'']

/-- The scalar types with an image that is a name or an integer. -/
inductive ScalarType where
  | enum (t : EnumType)
  | integer (kind : IntegerKind)
  | physical (t : PhysicalType)

/-- The values of 32 and 64 bits. -/
def IntegerKind.InRange : IntegerKind → Int → Prop
  | .i32, v => -2 ^ 31 ≤ v ∧ v < 2 ^ 31
  | .i64, v => -2 ^ 63 ≤ v ∧ v < 2 ^ 63

def PhysicalKind.InRange : PhysicalKind → Int → Prop
  | .p32, v => -2 ^ 31 ≤ v ∧ v < 2 ^ 31
  | .p64, v => -2 ^ 63 ≤ v ∧ v < 2 ^ 63

namespace ScalarType

/-- `T'Image (v)`. -/
def image : ScalarType → Int → Option (List Char)
  | .enum t, v => returnEnum t v.toNat
  | .integer kind, v => imageInteger kind v
  | .physical t, v => imagePhysical t v

/-- `T'Value (s)`. -/
def value (real : StringBase → Nat → Nat → Int → Outcome Int) (s : StringBase) (len : Nat) :
    ScalarType → Outcome Int
  | .enum t => do
    let index ← valueEnum s len t
    return index
  | .integer kind => valueInteger kind s len
  | .physical t => valuePhysical real s len t

/-- What the analysis of a type makes sure of: its names are distinct, and the primary unit is one. -/
def WellFormed : ScalarType → Prop
  | .enum t => t.names.Nodup ∧ ∀ name ∈ t.names, IsIdentifier name ∨ IsExtended name ∨ IsCharacter name
  | .integer _ => True
  | .physical t =>
    t.primary.value = 1 ∧ (t.units.map PhysicalUnit.name).Nodup ∧
      ∀ u ∈ t.units, IsIdentifier u.name ∨ IsExtended u.name

/-- The values of a type. -/
def HasValue : ScalarType → Int → Prop
  | .enum t, v => 0 ≤ v ∧ v < t.names.length
  | .integer kind, v => kind.InRange v
  | .physical t, v => t.kind.InRange v

/-- The value of a number of units. -/
def scaled (t : PhysicalType) (v : Int) (u : PhysicalUnit) : Int :=
  match t.kind with
  | .p32 => wrap 32 (wrap 64 (v * u.value))
  | .p64 => wrap 64 (v * u.value)

/-- The case of the name in the image does not matter: no upper-case letter is in the name of the literal, or it
is a character literal, or no upper-case letter is in the name of the primary unit, or else the name in lower
case is that of a unit with which the value is the same. -/
def FoldsCase : ScalarType → Int → Prop
  | .enum t, v => ∀ name, t.names[v.toNat]? = some name → folded name = name
  | .integer _, _ => True
  | .physical t, v =>
    folded t.primary.name = t.primary.name ∨
      ∃ u ∈ t.secondary, u.name = folded t.primary.name ∧ scaled t v u = v

end ScalarType

theorem IsIdentifierChar.visible (isChar : IsIdentifierChar c) : isWhitespace c = false := by
  have notSpace : c ≠ ' ' := by
    rintro rfl
    exact absurd isChar (by unfold IsIdentifierChar; decide)
  have notNbsp : c ≠ Char.ofNat 160 := by
    rintro rfl
    exact absurd isChar (by unfold IsIdentifierChar; decide)
  have notTab : c ≠ Char.ofNat 9 := by
    rintro rfl
    exact absurd isChar (by unfold IsIdentifierChar; decide)
  simp [isWhitespace, notSpace, notNbsp, notTab]

theorem IsIdentifier.trimmed (isName : IsIdentifier name) : Trimmed name where
  first := by
    obtain ⟨c, m, rfl⟩ := List.exists_cons_of_ne_nil isName.1
    exact ⟨c, m, rfl, (isName.2 c List.mem_cons_self).visible⟩
  last := by
    refine ⟨name.getLast isName.1, name.dropLast, (List.dropLast_append_getLast isName.1).symm, ?_⟩
    exact (isName.2 _ (List.getLast_mem isName.1)).visible

theorem IsExtended.trimmed (isName : IsExtended name) : Trimmed name := by
  obtain ⟨body, rfl⟩ := isName
  exact ⟨⟨'\\', _, rfl, by decide⟩, ⟨'\\', '\\' :: body, rfl, by decide⟩⟩

theorem IsCharacter.trimmed (isName : IsCharacter name) : Trimmed name := by
  obtain ⟨c, rfl⟩ := isName
  exact ⟨⟨'\'', _, rfl, by decide⟩, ⟨'\'', ['\'', c], rfl, by decide⟩⟩

theorem Trimmed.ne_nil (trimmed : Trimmed l) : l ≠ [] := by
  obtain ⟨c, m, rfl, _⟩ := trimmed.first
  exact List.cons_ne_nil c m

theorem Trimmed.append (first : Trimmed l) (second : Trimmed core) (m : List Char) : Trimmed (l ++ m ++ core) := by
  obtain ⟨c, rest, rfl, visible⟩ := first.first
  obtain ⟨d, front, rfl, visible'⟩ := second.last
  exact ⟨⟨c, rest ++ m ++ (front ++ [d]), by simp, visible⟩, ⟨d, c :: rest ++ m ++ front, by simp, visible'⟩⟩

theorem valueEnum_spec (t : EnumType) (holds : At s 0 (before ++ name ++ after)) (blankBefore : Blank before)
    (blankAfter : Blank after) (trimmed : Trimmed name) (index : Nat) :
    valueEnum s (before ++ name ++ after).length t = .ok index ↔
      t.names.findIdx? (fun ref => decide (ref = folded name)) = some index := by
  have names : stringMatch s before.length (before.length + name.length) = fun ref => decide (ref = folded name) := by
    funext ref
    have here : At s before.length name := Nat.zero_add before.length ▸ At.right (At.left holds)
    exact Bool.eq_iff_iff.mpr ((stringMatch_iff here trimmed.ne_nil).trans (decide_eq_true_iff).symm)
  unfold valueEnum
  rw [removeWhitespaces_spec holds blankBefore blankAfter trimmed]
  dsimp only [bind, Except.bind]
  rw [names]
  cases t.names.findIdx? fun ref => decide (ref = folded name) with
  | none => simp
  | some i => simp [pure, Except.pure]

theorem value_image_enum (t : EnumType) (wellFormed : (ScalarType.enum t).WellFormed) (index : Nat)
    (isName : t.names[index]? = some name) (holds : At s 0 (before ++ name ++ after))
    (blankBefore : Blank before) (blankAfter : Blank after) :
    valueEnum s (before ++ name ++ after).length t = .ok index ↔ folded name = name := by
  obtain ⟨distinct, literals⟩ := wellFormed
  obtain ⟨inside, isAt⟩ := List.getElem?_eq_some_iff.mp isName
  have trimmed : Trimmed name := by
    rcases literals name (isAt ▸ List.getElem_mem inside) with literal | literal | literal
    all_goals exact literal.trimmed
  rw [valueEnum_spec t holds blankBefore blankAfter trimmed]
  rw [List.findIdx?_eq_some_iff_getElem]
  constructor
  · rintro ⟨bound, found, _⟩
    rw [isAt] at found
    exact (of_decide_eq_true found).symm
  · intro same
    refine ⟨inside, by rw [isAt, same]; exact decide_eq_true rfl, fun j less found => ?_⟩
    have other := of_decide_eq_true found
    rw [same, ← isAt] at other
    exact Nat.ne_of_lt less ((distinct.getElem_inj_iff).mp other)

/-- A number without blanks and without a point, which is read as N. -/
structure Number (n : Int) (str : List Char) : Prop where
  nonempty : str ≠ []
  plain : ∀ c ∈ str, isWhitespace c = false ∧ c ≠ '.'
  reads : ∀ s pos, At s pos str → valueI64 s (pos + str.length) pos = .ok n

variable {str : List Char}

theorem Number.trimmed (number : Number n str) : Trimmed str where
  first := by
    obtain ⟨c, m, rfl⟩ := List.exists_cons_of_ne_nil number.nonempty
    exact ⟨c, m, rfl, (number.plain c List.mem_cons_self).1⟩
  last := ⟨str.getLast number.nonempty, str.dropLast, (List.dropLast_append_getLast number.nonempty).symm,
    (number.plain _ (List.getLast_mem number.nonempty)).1⟩

theorem toString_number {length : Nat} (small : n.natAbs < 10 ^ (k + 1)) (room : k + 1 < length)
    (low : -2 ^ 63 ≤ n) (high : n < 2 ^ 63) : ∃ str, toString length n = some str ∧ Number n str := by
  obtain ⟨m, written, digits⟩ := toString_spec small room
  have plain : ∀ c ∈ m, isWhitespace c = false ∧ c ≠ '.' := by
    intro c inside
    have isDigit' := digits.2.1 c inside
    refine ⟨isDigit_visible isDigit', ?_⟩
    rintro rfl
    exact absurd isDigit' (by decide)
  refine ⟨_, written, ?_, ?_, fun s pos holds => valueI64_spec low high digits holds⟩
  · split
    · exact List.cons_ne_nil _ _
    · exact digits.1
  split
  · intro c inside
    rcases List.mem_cons.mp inside with rfl | inside
    · decide
    · exact plain c inside
  · exact plain

theorem toString_i32 (low : -2 ^ 31 ≤ n) (high : n < 2 ^ 31) : ∃ str, toString 11 n = some str ∧ Number n str :=
  toString_number (k := 9) (by omega) (by decide) (by omega) (by omega)

theorem toString_i64 (low : -2 ^ 63 ≤ n) (high : n < 2 ^ 63) : ∃ str, toString 21 n = some str ∧ Number n str :=
  toString_number (k := 19) (by omega) (by decide) low high

theorem value_image_integer (kind : IntegerKind) {v : Int} (hasValue : (ScalarType.integer kind).HasValue v) :
    ∃ str, imageInteger kind v = some str ∧ ∀ s before after, At s 0 (before ++ str ++ after) →
      Blank before → Blank after → valueInteger kind s (before ++ str ++ after).length = .ok v := by
  have reads : ∀ str, Number v str → ∀ s before after, At s 0 (before ++ str ++ after) →
      Blank before → Blank after → valueInteger kind s (before ++ str ++ after).length = .ok v := by
    intro str number s before after holds blankBefore blankAfter
    unfold valueInteger
    rw [removeWhitespaces_spec holds blankBefore blankAfter number.trimmed]
    show (valueI64 s (before.length + str.length) before.length >>= _) = _
    rw [number.reads s before.length (Nat.zero_add before.length ▸ At.right (At.left holds))]
    cases kind with
    | i32 => exact congrArg Except.ok (wrap_32 hasValue.1 hasValue.2)
    | i64 => rfl
  cases kind with
  | i32 =>
    obtain ⟨str, written, number⟩ := toString_i32 hasValue.1 hasValue.2
    exact ⟨str, written, reads str number⟩
  | i64 =>
    obtain ⟨str, written, number⟩ := toString_i64 hasValue.1 hasValue.2
    exact ⟨str, written, reads str number⟩

variable (count) in
theorem splitLiteral_spec (holds : At s pos (str ++ ' ' :: l))
    (plain : ∀ c ∈ str, isWhitespace c = false ∧ c ≠ '.') (enough : str.length < count) :
    splitLiteral s count pos false = (pos + str.length, false) := by
  induction str generalizing pos count with
  | nil =>
    cases count with
    | zero => exact absurd enough (Nat.not_lt_zero _)
    | succ count =>
      unfold splitLiteral
      rw [At.head holds]
      rfl
  | cons c str ih =>
    cases count with
    | zero => exact absurd enough (Nat.not_lt_zero _)
    | succ count =>
      obtain ⟨visible, notPoint⟩ := plain c List.mem_cons_self
      unfold splitLiteral
      rw [At.head holds, visible, decide_eq_false notPoint]
      show splitLiteral s count (pos + 1) false = _
      rw [ih count (At.tail holds) (fun d inside => plain d (List.mem_cons_of_mem c inside))
        (Nat.lt_of_succ_lt_succ enough)]
      show (pos + 1 + str.length, false) = (pos + (str.length + 1), false)
      rw [Nat.add_assoc, Nat.add_comm 1]

theorem valuePhysicalSplit_spec (number : Number n str)
    (holds : At s 0 (before ++ (str ++ [' '] ++ name) ++ after)) (blankBefore : Blank before)
    (blankAfter : Blank after) (trimmed : Trimmed name) :
    valuePhysicalSplit s (before ++ (str ++ [' '] ++ name) ++ after).length =
      .ok { isReal := false, litPos := before.length, litEnd := before.length + str.length
            unitPos := before.length + str.length + 1 } := by
  have whole := number.trimmed.append trimmed [' ']
  have length : (str ++ [' '] ++ name).length = str.length + 1 + name.length := by
    rw [List.length_append, List.length_append]
    rfl
  have here : At s before.length (str ++ [' '] ++ name) := Nat.zero_add before.length ▸ At.right (At.left holds)
  obtain ⟨c, rest, rfl, visible⟩ := trimmed.first
  have unit : At s (before.length + str.length + 1) (c :: rest) := by
    have behind := At.right here
    rwa [List.length_append, ← Nat.add_assoc] at behind
  rw [List.append_assoc] at here
  have literal := splitLiteral_spec (before.length + (str ++ [' '] ++ c :: rest).length - before.length)
    here number.plain (by rw [Nat.add_sub_cancel_left, length]; omega)
  have notEnd : before.length + str.length ≠ before.length + (str ++ [' '] ++ c :: rest).length := by
    rw [length]
    omega
  have next : skipLeading s (before.length + (str ++ [' '] ++ c :: rest).length - (before.length + str.length + 1))
      (before.length + str.length + 1) = before.length + str.length + 1 :=
    skipLeading_blanks _ (show At s _ ([] ++ c :: rest) from unit) (fun d inside => absurd inside List.not_mem_nil) visible (Nat.zero_le _)
  unfold valuePhysicalSplit
  rw [removeWhitespaces_spec holds blankBefore blankAfter whole]
  show (if (splitLiteral s _ before.length false).1 = _ then _ else _ : Outcome Split) = _
  rw [literal, if_neg notEnd]
  show Except.ok _ = Except.ok _
  rw [next]

theorem valuePhysical_spec (real : StringBase → Nat → Nat → Int → Outcome Int) (t : PhysicalType) (number : Number n str) (trimmed : Trimmed t.primary.name)
    (holds : At s 0 (before ++ (str ++ [' '] ++ t.primary.name) ++ after)) (blankBefore : Blank before)
    (blankAfter : Blank after) (v : Int) :
    valuePhysical real s (before ++ (str ++ [' '] ++ t.primary.name) ++ after).length t = .ok v ↔
      ∃ u, t.units.find? (fun u => decide (u.name = folded t.primary.name)) = some u ∧ ScalarType.scaled t n u = v := by
  have whole := number.trimmed.append trimmed [' ']
  have here : At s before.length (str ++ [' '] ++ t.primary.name) :=
    Nat.zero_add before.length ▸ At.right (At.left holds)
  have unit : At s (before.length + str.length + 1) t.primary.name := by
    have behind := At.right here
    rwa [List.length_append, ← Nat.add_assoc] at behind
  have ends : before.length + (str ++ [' '] ++ t.primary.name).length =
      before.length + str.length + 1 + t.primary.name.length := by
    rw [List.length_append, List.length_append, ← Nat.add_assoc, ← Nat.add_assoc]
    rfl
  have names : (fun u : PhysicalUnit => stringMatch s (before.length + str.length + 1)
      (before.length + (str ++ [' '] ++ t.primary.name).length) u.name) =
        fun u => decide (u.name = folded t.primary.name) := by
    funext u
    rw [ends]
    exact Bool.eq_iff_iff.mpr ((stringMatch_iff unit trimmed.ne_nil).trans (decide_eq_true_iff).symm)
  have literal := number.reads s before.length (At.left (At.left here))
  have literalEnd : before.length + str.length ≠ 0 := by
    have positive := List.length_pos_iff.mpr number.nonempty
    omega
  unfold valuePhysical valuePhysicalType
  rw [removeWhitespaces_spec holds blankBefore blankAfter whole,
    valuePhysicalSplit_spec number holds blankBefore blankAfter trimmed]
  dsimp only [bind, Except.bind]
  rw [names]
  cases found : t.units.find? fun u => decide (u.name = folded t.primary.name) with
  | none =>
    constructor
    · intro result
      cases result
    · rintro ⟨u, absent, _⟩
      cases absent
  | some u =>
    dsimp only
    rw [if_neg literalEnd, literal]
    have chosen : ScalarType.scaled t n u = v ↔ ∃ u', some u = some u' ∧ ScalarType.scaled t n u' = v := by
      constructor
      · intro result
        exact ⟨u, rfl, result⟩
      · rintro ⟨u', isU, result⟩
        rw [Option.some.inj isU]
        exact result
    rw [← chosen]
    have result : ∀ {m : Int}, (Except.ok m : Outcome Int) = .ok v ↔ m = v := ⟨Except.ok.inj, congrArg Except.ok⟩
    unfold ScalarType.scaled
    cases t.kind with
    | p32 | p64 => exact result

theorem value_image_physical (real : StringBase → Nat → Nat → Int → Outcome Int) (t : PhysicalType)
    (wellFormed : (ScalarType.physical t).WellFormed) {v : Int} (hasValue : (ScalarType.physical t).HasValue v) :
    ∃ str, imagePhysical t v = some str ∧ ∀ s before after, At s 0 (before ++ str ++ after) → Blank before →
      Blank after → (valuePhysical real s (before ++ str ++ after).length t = .ok v ↔
        (ScalarType.physical t).FoldsCase v) := by
  obtain ⟨one, distinct, names⟩ := wellFormed
  have trimmed : Trimmed t.primary.name := by
    rcases names t.primary List.mem_cons_self with name | name
    all_goals exact name.trimmed
  have written : ∃ str, toString t.kind.imageLength v = some str ∧ Number v str := by
    change t.kind.InRange v at hasValue
    cases isKind : t.kind with
    | p32 =>
      rw [isKind] at hasValue
      exact toString_i32 hasValue.1 hasValue.2
    | p64 =>
      rw [isKind] at hasValue
      exact toString_i64 hasValue.1 hasValue.2
  have unscaled : ScalarType.scaled t v t.primary = v := by
    change t.kind.InRange v at hasValue
    unfold ScalarType.scaled
    rw [one, Int.mul_one]
    cases isKind : t.kind with
    | p32 =>
      rw [isKind] at hasValue
      obtain ⟨low, high⟩ := hasValue
      show wrap 32 (wrap 64 v) = v
      rw [wrap_64 (by omega) (by omega), wrap_32 low high]
    | p64 =>
      rw [isKind] at hasValue
      exact wrap_64 hasValue.1 hasValue.2
  obtain ⟨str, isStr, number⟩ := written
  refine ⟨str ++ [' '] ++ t.primary.name, ?_, fun s before after holds blankBefore blankAfter => ?_⟩
  · unfold imagePhysical
    rw [isStr, List.append_assoc]
    rfl
  rw [valuePhysical_spec real t number trimmed holds blankBefore blankAfter]
  constructor
  · rintro ⟨u, found, same⟩
    have isName : u.name = folded t.primary.name :=
      of_decide_eq_true (List.find?_some (p := fun u : PhysicalUnit => decide (u.name = folded t.primary.name)) found)
    rcases List.mem_cons.mp (List.mem_of_find?_eq_some found) with rfl | inside
    · exact .inl isName.symm
    · exact .inr ⟨u, inside, isName, same⟩
  · intro folds
    obtain ⟨u, inside, isName, same⟩ : ∃ u ∈ t.units, u.name = folded t.primary.name ∧ ScalarType.scaled t v u = v := by
      rcases folds with plain | ⟨u, inside, isName, same⟩
      · exact ⟨t.primary, List.mem_cons_self, plain.symm, unscaled⟩
      · exact ⟨u, List.mem_cons_of_mem _ inside, isName, same⟩
    have some : (t.units.find? fun u => decide (u.name = folded t.primary.name)).isSome = true :=
      List.find?_isSome.mpr ⟨u, inside, decide_eq_true isName⟩
    obtain ⟨u', found⟩ := Option.isSome_iff_exists.mp some
    have isName' : u'.name = folded t.primary.name :=
      of_decide_eq_true (List.find?_some (p := fun u : PhysicalUnit => decide (u.name = folded t.primary.name)) found)
    -- The names of the units are distinct.
    have unique : u' = u :=
      List.inj_on_of_nodup_map distinct (List.mem_of_find?_eq_some found) inside (isName'.trans isName.symm)
    exact ⟨u', found, unique ▸ same⟩

/-- For each value of each scalar type, the value of its image, with blanks around it, is the value again
exactly when the case of the name in the image does not matter. -/
theorem ScalarType.value_image_iff (real : StringBase → Nat → Nat → Int → Outcome Int) (t : ScalarType)
    (wellFormed : t.WellFormed) (v : Int) (hasValue : t.HasValue v) :
    ∃ str, t.image v = some str ∧ ∀ s before after, At s 0 (before ++ str ++ after) → Blank before →
      Blank after → (t.value real s (before ++ str ++ after).length = .ok v ↔ t.FoldsCase v) := by
  cases t with
  | enum t =>
    obtain ⟨low, high⟩ := hasValue
    have inside : v.toNat < t.names.length := by omega
    have isName : t.names[v.toNat]? = some t.names[v.toNat] := List.getElem?_eq_getElem inside
    refine ⟨t.names[v.toNat], isName, fun s before after holds blankBefore blankAfter => ?_⟩
    have found := value_image_enum t wellFormed v.toNat isName holds blankBefore blankAfter
    have index : (ScalarType.enum t).value real s (before ++ t.names[v.toNat] ++ after).length = .ok v ↔
        valueEnum s (before ++ t.names[v.toNat] ++ after).length t = .ok v.toNat := by
      show (valueEnum s (before ++ t.names[v.toNat] ++ after).length t >>= fun i => .ok (i : Int)) = .ok v ↔ _
      cases valueEnum s (before ++ t.names[v.toNat] ++ after).length t with
      | error e => exact ⟨(fun result => by cases result), (fun result => by cases result)⟩
      | ok i =>
        show (Except.ok (i : Int) : Outcome Int) = .ok v ↔ _
        rw [Except.ok.injEq, Except.ok.injEq]
        omega
    rw [index, found]
    constructor
    · intro same name isName'
      rw [isName] at isName'
      exact Option.some.inj isName' ▸ same
    · intro folds
      exact folds _ isName
  | integer kind =>
    obtain ⟨str, written, reads⟩ := value_image_integer kind hasValue
    refine ⟨str, written, fun s before after holds blankBefore blankAfter => ?_⟩
    exact ⟨fun _ => trivial, fun _ => reads s before after holds blankBefore blankAfter⟩
  | physical t => exact value_image_physical real t wellFormed hasValue

/-- The least integer, after a blank. -/
theorem ScalarType.value_image_iff_least : ∃ str, (ScalarType.integer .i64).image (-2 ^ 63) = some str ∧
      ∀ s, At s 0 ([' '] ++ str ++ []) →
        (ScalarType.integer .i64).value (fun _ _ _ _ => .ok 0) s ([' '] ++ str ++ []).length = .ok (-2 ^ 63) := by
  have least : (ScalarType.integer .i64).HasValue (-2 ^ 63) := by
    show (-2 ^ 63 : Int) ≤ -2 ^ 63 ∧ (-2 ^ 63 : Int) < 2 ^ 63
    omega
  obtain ⟨str, image, reads⟩ := ScalarType.value_image_iff (fun _ _ _ _ => .ok 0) (.integer .i64) trivial (-2 ^ 63) least
  refine ⟨str, image, fun s holds => ?_⟩
  exact (reads s [' '] [] holds (by decide +kernel) (by decide +kernel)).mpr trivial

/-- Two extended identifiers that differ in their case only. -/
def lettersA : EnumType where
  name := ['t']
  names := [['\\', 'a', '\\'], ['\\', 'A', '\\']]

/-- The image of the second identifier is read as the first one. -/
theorem value_image_upper_case : (ScalarType.enum lettersA).WellFormed ∧ (ScalarType.enum lettersA).HasValue 1 ∧
      (ScalarType.enum lettersA).image 1 = some ['\\', 'A', '\\'] ∧
      ∀ real, (ScalarType.enum lettersA).value real (fun i => ['\\', 'A', '\\'].getD i ' ') 3 = .ok 0 := by
  refine ⟨⟨by decide, ?_⟩, ⟨by decide, by decide⟩, rfl, fun real => rfl⟩
  intro name inside
  refine .inr (.inl ?_)
  rcases List.mem_cons.mp inside with rfl | inside
  · exact ⟨['a'], rfl⟩
  · rw [List.mem_singleton.mp inside]
    exact ⟨['A'], rfl⟩

end Ghdl.Text
