import Ghdl.Vhdl.Characters
import Ghdl.Vhdl.ScanLiteral

/-!
# The scanner of bit strings

`Scan_Bit_String` expands each character to `Base_Log` elements: a digit of the base to its bits, and in VHDL-2008 any
other graphic character to itself. The digit just above those of the base is neither, and gives an error.
-/

namespace Ghdl.Vhdl

open Fallible

/-- The token of a bit string; `rem` is the one of a replacement character that cannot start a bit string. -/
inductive BitToken where
  | bitString
  | rem
  deriving DecidableEq

/-- The scan of a bit string: the source from `Pos` on, `Current_Token`, the elements of the string `Str_Id`, its length
and the messages. -/
structure BitScan where
  source : List Char
  token : BitToken
  string : List Nat
  length : Nat
  messages : List String
  deriving DecidableEq

/-- A failed assertion, or `Internal_Error`. -/
inductive BitFailure where
  | assertion
  | internalError
  deriving DecidableEq

namespace BitScan

/-- `Error_Msg_Scan`. -/
def error (s : BitScan) (msg : String) : BitScan := { s with messages := s.messages ++ [msg] }

/-- The messages for an underscore, between the characters before and after it. -/
def underscore (s : BitScan) (mark before after : Char) : BitScan :=
  let s := if after = '_' then s.error "double underscore not allowed in a bit string" else s
  if before = mark then s.error "underscore not allowed at the start of a bit string"
  else if after = mark then s.error "underscore not allowed at the end of a bit string"
  else s

end BitScan

/-- The loop that appends the bits of a digit; the first one has this weight. -/
def appendBits (weight : Nat) : Nat → Nat → List Nat
  | 0, _ => []
  | n + 1, v => ('0'.toNat + v / weight) :: appendBits weight n ((v - weight * (v / weight)) * 2)

/-- The expansion of an extended digit. -/
def expandDigit (s : BitScan) (baseLog v : Nat) : Except BitFailure BitScan :=
  match baseLog with
  | 1 =>
    let s := if 1 < v then s.error "invalid character in a binary bit string" else s
    .ok { s with string := s.string ++ ['0'.toNat + min v 1] }
  | 3 =>
    let s := if 7 < v then s.error "invalid character in a octal bit string" else s
    .ok { s with string := s.string ++ appendBits 4 3 (min v 7) }
  | 4 => .ok { s with string := s.string ++ appendBits 8 4 v }
  | _ => .error .internalError

/-- The expansion of a character with its value. -/
def expand (vhdl08 : Bool) (baseLog : Nat) (s : BitScan) (c : Char) (v : Nat) : Except BitFailure BitScan :=
  let s := { s with length := s.length + baseLog }
  if vhdl08 ∧ 2 ^ baseLog < v then .ok { s with string := s.string ++ List.replicate baseLog c.toNat }
  else expandDigit s baseLog v

/-- The end of the scan at a character that is not graphic. -/
def unterminated (mark : Char) (text source : List Char) (s : BitScan) : BitScan :=
  if mark = '%' then { s.error "'%%' is not a vhdl operator, use 'rem'" with token := .rem, source := text }
  else { s.error "bit string not terminated" with source }

/-- The loop of `Scan_Bit_String`, with the character before `Pos` and the flag `Has_Invalid`. -/
def scanBits (vhdl08 : Bool) (baseLog : Nat) (mark : Char) (text : List Char) :
    List Char → Char → Bool → BitScan → Except BitFailure BitScan
  | [], _, _, s => .ok (unterminated mark text [] s)
  | c :: cs, before, invalid, s =>
    if c = mark then .ok { s with source := cs }
    else if c = '_' then scanBits vhdl08 baseLog mark text cs c invalid (s.underscore mark before (cs.headD eot))
    else if c = '"' then .ok { s.error "'\"' cannot close a bit string opened by '%%'" with source := cs }
    else if c = '%' then .ok { s.error "'%%' cannot close a bit string opened by '\"'" with source := cs }
    else match extended c with
      | some v => do
        let s ← expand vhdl08 baseLog s c v
        scanBits vhdl08 baseLog mark text cs c invalid s
      | none =>
        if ¬ Graphic c then .ok (unterminated mark text (c :: cs) s)
        else if vhdl08 then do
          let s ← expand vhdl08 baseLog s c 255
          scanBits vhdl08 baseLog mark text cs c invalid s
        else do
          let s := if invalid then s else s.error "invalid character in bit string"
          let s ← expand vhdl08 baseLog s c 0
          scanBits vhdl08 baseLog mark text cs c true s

/-- `Scan_Bit_String`, at the mark. -/
def scanBitString (vhdl08 : Bool) (baseLog : Nat) (source : List Char) : Except BitFailure BitScan :=
  let mark := source.headD eot
  if mark = '"' ∨ mark = '%' then
    scanBits vhdl08 baseLog mark source.tail source.tail mark false ⟨source.tail, .bitString, [], 0, []⟩
  else .error .assertion

/-- The binary representation of a digit. -/
def binary (baseLog v : Nat) : List Nat :=
  (List.range baseLog).map fun i => '0'.toNat + v / 2 ^ (baseLog - 1 - i) % 2

/-- What a character of the literal stands for. -/
def elements (baseLog : Nat) (c : Char) : List Nat :=
  match extended c with
  | some v => if v < 2 ^ baseLog then binary baseLog v else List.replicate baseLog c.toNat
  | none => List.replicate baseLog c.toNat

/-- The characters that may stand in a bit string: the digits of the base, and in VHDL-2008 the graphic characters. -/
def Allowed (vhdl08 : Bool) (baseLog : Nat) (c : Char) : Prop :=
  Graphic c ∧ (vhdl08 = false → ∃ v, extended c = some v ∧ v < 2 ^ baseLog)

theorem appendBits_eq : (∀ v < 8, appendBits 4 3 v = binary 3 v) ∧ ∀ v < 16, appendBits 8 4 v = binary 4 v := by
  decide

variable {c : Char} {v : Nat}

theorem graphic_of_extended (digit : extended c = some v) : v < 16 ∧ Graphic c := by
  have code {d : Char} : c ≤ d ↔ c.toNat ≤ d.toNat := Iff.rfl
  have code' {d : Char} : d ≤ c ↔ d.toNat ≤ c.toNat := Iff.rfl
  have kinds : ∀ n < 256, (48 ≤ n ∧ n ≤ 57 ∨ 65 ≤ n ∧ n ≤ 70 ∨ 97 ≤ n ∧ n ≤ 102) → Graphic (Char.ofNat n) := by
    decide +kernel
  rw [← Char.ofNat_toNat c]
  simp only [extended, code, code', show '0'.toNat = 48 from rfl, show '9'.toNat = 57 from rfl,
    show 'A'.toNat = 65 from rfl, show 'F'.toNat = 70 from rfl, show 'a'.toNat = 97 from rfl,
    show 'f'.toNat = 102 from rfl] at digit
  split at digit
  · exact ⟨by cases digit; omega, kinds _ (by omega) (by omega)⟩
  · split at digit
    · exact ⟨by cases digit; omega, kinds _ (by omega) (by omega)⟩
    · split at digit
      · exact ⟨by cases digit; omega, kinds _ (by omega) (by omega)⟩
      · cases digit

variable {s s' : BitScan} {baseLog : Nat}

/-- A digit that is expanded without a message is one of the base. -/
theorem expandDigit_ok (digit : v < 16) (run : expandDigit s baseLog v = .ok s') (clean : s'.messages = []) :
    s.messages = [] ∧ v < 2 ^ baseLog ∧ s'.token = s.token ∧ s'.string = s.string ++ binary baseLog v ∧
      s'.length = s.length := by
  unfold expandDigit at run
  split at run
  · cases run
    by_cases outside : 1 < v
    · simp [outside, BitScan.error] at clean
    · have same : ∀ v < 2, ['0'.toNat + min v 1] = binary 1 v := by decide
      simp only [if_neg outside] at clean ⊢
      exact ⟨clean, by omega, trivial, by rw [same v (by omega)], trivial⟩
  · cases run
    by_cases outside : 7 < v
    · simp [outside, BitScan.error] at clean
    · simp only [if_neg outside] at clean ⊢
      exact ⟨clean, by omega, trivial, by rw [min_eq_left (by omega), appendBits_eq.1 v (by omega)], trivial⟩
  · cases run
    exact ⟨clean, digit, rfl, by rw [appendBits_eq.2 v digit], rfl⟩
  · cases run

variable {vhdl08 : Bool}

/-- A character that is expanded without a message is allowed, and its elements are appended. -/
theorem expand_ok (graphic : Graphic c) (value : extended c = some v ∨ extended c = none ∧ vhdl08 = true ∧ v = 255)
    (run : expand vhdl08 baseLog s c v = .ok s') (clean : s'.messages = []) :
    s.messages = [] ∧ Allowed vhdl08 baseLog c ∧ s'.token = s.token ∧
      s'.string = s.string ++ elements baseLog c ∧ s'.length = s.length + baseLog := by
  unfold expand at run
  dsimp only at run
  by_cases itself : vhdl08 = true ∧ 2 ^ baseLog < v
  · rw [if_pos itself] at run
    cases run
    have same : elements baseLog c = List.replicate baseLog c.toNat := by
      unfold elements
      rcases value with digit | ⟨other, -, -⟩
      · simp only [digit]
        rw [if_neg (by have := itself.2; omega)]
      · simp only [other]
    refine ⟨clean, ⟨graphic, fun early => ?_⟩, rfl, by rw [same], rfl⟩
    rw [itself.1] at early
    cases early
  rw [if_neg itself] at run
  rcases value with digit | ⟨-, late, rfl⟩
  · obtain ⟨before, small, token, string, length⟩ := expandDigit_ok (graphic_of_extended digit).1 run clean
    have same : elements baseLog c = binary baseLog v := by
      unfold elements
      simp only [digit]
      rw [if_pos small]
    exact ⟨before, ⟨graphic, fun _ => ⟨v, digit, small⟩⟩, token, by rw [string, same], length⟩
  · -- the value of the other characters is above each base that has a digit
    have bound : ¬ 2 ^ baseLog < 255 := fun above => itself ⟨late, above⟩
    unfold expandDigit at run
    split at run
    · exact absurd (by decide) bound
    · exact absurd (by decide) bound
    · exact absurd (by decide) bound
    · cases run

theorem expand_messages (run : expand vhdl08 baseLog s c v = .ok s') (clean : s'.messages = []) : s.messages = [] := by
  unfold expand expandDigit BitScan.error at run
  dsimp only at run
  split at run
  · cases run
    exact clean
  · split at run <;> cases run
    · dsimp only at clean
      split at clean
      · simp at clean
      · exact clean
    · dsimp only at clean
      split at clean
      · simp at clean
      · exact clean
    · exact clean

theorem underscore_clean {mark before after : Char}
    (clean : (s.underscore mark before after).messages = []) : s.underscore mark before after = s := by
  unfold BitScan.underscore at clean ⊢
  dsimp only at clean ⊢
  by_cases double : after = '_'
  · rw [if_pos double] at clean
    split at clean
    · simp [BitScan.error] at clean
    · split at clean <;> simp [BitScan.error] at clean
  rw [if_neg double] at clean ⊢
  split at clean
  · simp [BitScan.error] at clean
  · rename_i inside
    rw [if_neg inside]
    split at clean
    · simp [BitScan.error] at clean
    · rename_i last
      rw [if_neg last]

theorem unterminated_messages (mark : Char) (text source : List Char) (s : BitScan) :
    (unterminated mark text source s).messages ≠ [] := by
  unfold unterminated BitScan.error
  split <;> simp

/-- What the loop has done when it ends without a message. -/
theorem scanBits_stored {mark : Char} {text source : List Char} {before : Char}
    {invalid : Bool} {result : BitScan} (run : scanBits vhdl08 baseLog mark text source before invalid s = .ok result)
    (flag : invalid = true → s.messages ≠ []) (clean : result.messages = []) :
    s.messages = [] ∧ ∃ body, source = body ++ mark :: result.source ∧ mark ∉ body ∧ result.token = s.token ∧
      result.string = s.string ++ (body.filter (· ≠ '_')).flatMap (elements baseLog) ∧
      result.length = s.length + baseLog * (body.filter (· ≠ '_')).length ∧
      ∀ c ∈ body, c ≠ '_' → Allowed vhdl08 baseLog c := by
  induction source generalizing before invalid s with
  | nil => cases run; exact absurd clean (unterminated_messages mark text [] s)
  | cons c cs ih =>
    -- a character that is expanded, and the rest of the loop
    have expanded {s s' : BitScan} {v : Nat} {invalid : Bool} (isOther : c ≠ mark) (plain : c ≠ '_')
        (graphic : Graphic c) (value : extended c = some v ∨ extended c = none ∧ vhdl08 = true ∧ v = 255)
        (flag : invalid = true → s.messages ≠ []) (first : expand vhdl08 baseLog s c v = .ok s')
        (rest : scanBits vhdl08 baseLog mark text cs c invalid s' = .ok result) :
        s.messages = [] ∧ ∃ body, c :: cs = body ++ mark :: result.source ∧ mark ∉ body ∧
          result.token = s.token ∧
          result.string = s.string ++ (body.filter (· ≠ '_')).flatMap (elements baseLog) ∧
          result.length = s.length + baseLog * (body.filter (· ≠ '_')).length ∧
          ∀ c ∈ body, c ≠ '_' → Allowed vhdl08 baseLog c := by
      obtain ⟨clean', body, split, outside, token, string, length, allowed⟩ :=
        ih rest fun late clean => flag late (expand_messages first clean)
      obtain ⟨before, allowed', token', string', length'⟩ := expand_ok graphic value first clean'
      have kept : (c :: body).filter (· ≠ '_') = c :: body.filter (· ≠ '_') :=
        List.filter_cons_of_pos (by simpa using plain)
      refine ⟨before, c :: body, by rw [split]; rfl, ?_, token.trans token', ?_, ?_, ?_⟩
      · exact List.not_mem_cons_of_ne_of_not_mem isOther.symm outside
      · rw [kept, List.flatMap_cons, string, string', List.append_assoc]
      · rw [kept, List.length_cons, length, length', Nat.mul_succ]
        omega
      · exact List.forall_mem_cons.mpr ⟨fun _ => allowed', allowed⟩
    unfold scanBits at run
    by_cases last : c = mark
    · rw [if_pos last] at run
      cases run
      exact ⟨clean, [], by rw [last]; rfl, List.not_mem_nil, rfl, (List.append_nil _).symm, rfl,
        fun _ inside => absurd inside List.not_mem_nil⟩
    rw [if_neg last] at run
    by_cases under : c = '_'
    · rw [if_pos under] at run
      have flag' : invalid = true → (s.underscore mark before (cs.headD eot)).messages ≠ [] := by
        intro late clean
        rw [underscore_clean clean] at clean
        exact flag late clean
      have after := ih run flag'
      rw [underscore_clean after.1] at after
      obtain ⟨clean', body, split, outside, token, string, length, allowed⟩ := after
      have left : (c :: body).filter (· ≠ '_') = body.filter (· ≠ '_') :=
        List.filter_cons_of_neg (by simpa using under)
      refine ⟨clean', c :: body, by rw [split]; rfl, ?_, token, by rw [left, string], by rw [left, length], ?_⟩
      · exact List.not_mem_cons_of_ne_of_not_mem (Ne.symm last) outside
      · exact List.forall_mem_cons.mpr ⟨fun plain => absurd under plain, allowed⟩
    rw [if_neg under] at run
    by_cases quote : c = '"'
    · rw [if_pos quote] at run
      cases run
      simp [BitScan.error] at clean
    rw [if_neg quote] at run
    by_cases percent : c = '%'
    · rw [if_pos percent] at run
      cases run
      simp [BitScan.error] at clean
    rw [if_neg percent] at run
    split at run
    · rename_i v digit
      obtain ⟨s', first, rest⟩ := bind_ok.mp run
      exact expanded last under (graphic_of_extended digit).2 (.inl digit) flag first rest
    · rename_i other
      by_cases graphic : Graphic c
      · rw [if_neg (not_not.mpr graphic)] at run
        by_cases late : vhdl08 = true
        · rw [if_pos late] at run
          obtain ⟨s', first, rest⟩ := bind_ok.mp run
          exact expanded last under graphic (.inr ⟨other, late, rfl⟩) flag first rest
        rw [if_neg late] at run
        obtain ⟨s', first, rest⟩ := bind_ok.mp run
        -- a message has been given, now or for an earlier character
        have given : (if invalid then s else s.error "invalid character in bit string").messages ≠ [] := by
          cases invalid
          · simp [BitScan.error]
          · exact flag rfl
        have clean' := (ih rest fun _ clean => given (expand_messages first clean)).1
        exact absurd (expand_messages first clean') given
      · rw [if_pos graphic] at run
        cases run
        exact absurd clean (unterminated_messages mark text _ s)

/-- A bit string scanned without a message is the expansion of the characters between the marks, underscores left out. -/
theorem scanBitString_stored (vhdl08 : Bool) (baseLog : Nat) (mark : Char) (text : List Char) (result : BitScan)
    (run : scanBitString vhdl08 baseLog (mark :: text) = .ok result) (clean : result.messages = []) :
    result.token = .bitString ∧ ∃ body, text = body ++ mark :: result.source ∧ mark ∉ body ∧
      result.string = (body.filter (· ≠ '_')).flatMap (elements baseLog) ∧
      result.length = baseLog * (body.filter (· ≠ '_')).length ∧ ∀ c ∈ body, c ≠ '_' → Allowed vhdl08 baseLog c := by
  unfold scanBitString at run
  dsimp only at run
  split at run
  · have nothing : false = true → (⟨text, .bitString, [], 0, []⟩ : BitScan).messages ≠ [] := nofun
    obtain ⟨-, body, split, outside, token, string, length, allowed⟩ := scanBits_stored run nothing clean
    exact ⟨token, body, split, outside, string, length.trans (Nat.zero_add _), allowed⟩
  · cases run

/-- `X"a_Z"` in VHDL-2008: the bits of 10, and four times the letter. -/
theorem scanBitString_stored_letter : ∃ result, scanBitString true 4 ['"', 'a', '_', 'Z', '"'] = .ok result ∧
    result.string = [49, 48, 49, 48, 90, 90, 90, 90] ∧ result.messages = [] ∧ result.token = .bitString :=
  ⟨_, rfl, rfl, rfl, (scanBitString_stored true 4 '"' ['a', '_', 'Z', '"'] _ rfl rfl).1⟩

end Ghdl.Vhdl
