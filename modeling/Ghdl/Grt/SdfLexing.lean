import Ghdl.Grt.Sdf

/-!
# Lexical rules of SDF files

The rules on the whole content, without a buffer, and what the scanner with its buffer needs to follow them: no comment
goes on behind two slashes that are the last characters read, and each identifier and each string comes to its end in
the buffer or in one more block.
-/

namespace Ghdl.Sdf

def isBlank (c : UInt8) : Bool := c = chr ' ' ∨ c = ht ∨ c = lf ∨ c = cr

/-- The content after blanks and comments. A comment goes up to the end of the line. -/
def skipContent : Bool → List UInt8 → List UInt8
  | _, [] => []
  | true, c :: rest =>
    if c = eot then c :: rest else skipContent (!(c = cr ∨ c = lf)) rest
  | false, c :: rest =>
    if isBlank c then skipContent false rest
    else if c = chr '/' ∧ rest.head? = some (chr '/') then skipContent true rest
    else c :: rest

/-- The end of a number. -/
def numberToken (hasDot isNegative : Bool) (scanInt scanExp : Int) : Token :=
  .number (if hasDot then .tokRnumber else .tokDnumber) (if isNegative then -scanInt else scanInt) scanExp

/-- A number, from any place in it. -/
def lexNumber (hasDot isNegative : Bool) (scanInt scanExp : Int) : List UInt8 → Option (Token × List UInt8)
  | [] => some (numberToken hasDot isNegative scanInt scanExp, [])
  | c :: rest =>
    if isDigit c then
      match addDigit scanInt c with
      | .ok value => lexNumber hasDot isNegative value (if hasDot then scanExp - 1 else scanExp) rest
      | .error _ => none
    else if c = chr '.' then if hasDot then none else lexNumber true isNegative scanInt scanExp rest
    else if c = chr '-' then if isNegative then none else lexNumber hasDot true scanInt scanExp rest
    else if c = eot then none
    else some (numberToken hasDot isNegative scanInt scanExp, c :: rest)

/-- The characters inside a string. -/
def isStringChar (c : UInt8) : Bool := c ≠ eot ∧ isBad c = false ∧ c ≠ chr '"'

/-- A string, after its first quote. -/
def lexString (content : List UInt8) : Option (Token × List UInt8) :=
  match content.dropWhile isStringChar with
  | [] => none
  | c :: rest => if c = chr '"' then some (.text .tokQstring (content.takeWhile isStringChar), rest) else none

/-- An identifier. -/
def lexIdentifier (content : List UInt8) : Option (Token × List UInt8) :=
  let rest := content.dropWhile isIdentChar
  if rest.head? = some (chr '\\') then none else some (.text .tokIdentifier (content.takeWhile isIdentChar), rest)

/-- A token that starts here. -/
def lexAt : List UInt8 → Option (Token × List UInt8)
  | [] => some (.plain .tokEof, [])
  | c :: rest =>
    if c = eot then none
    else if c = chr '"' then lexString rest
    else if c = chr '/' then some (.plain .tokDiv, rest)
    else if c = chr '.' then some (.plain .tokDot, rest)
    else if c = chr ':' then some (.plain .tokCln, rest)
    else if c = chr '(' then some (.plain .tokOparen, rest)
    else if c = chr ')' then some (.plain .tokCparen, rest)
    else if isLetter c then lexIdentifier (c :: rest)
    else if isDigit c ∨ c = chr '-' then lexNumber false false 0 0 (c :: rest)
    else none

/-- The next token, and the content after it. -/
def lexToken (content : List UInt8) : Option (Token × List UInt8) := lexAt (skipContent false content)

/-- The first tokens of the content, up to its end or an error. -/
def lexTokens : Nat → List UInt8 → List Token × Ending
  | 0, _ => ([], .unfinished)
  | n + 1, content =>
    match lexToken content with
    | none => ([], .error)
    | some (.plain .tokEof, _) => ([], .eof)
    | some (tok, rest) => (tok :: (lexTokens n rest).1, (lexTokens n rest).2)

/-- What the buffer holds from a position on, and the blocks that are still to be read. -/
structure View where
  pos : Nat
  win : List UInt8
  stream : List (List UInt8)

namespace View

def content (v : View) : List UInt8 := v.win ++ v.stream.flatten

/-- The first `n` characters are behind. -/
def advance (v : View) (n : Nat) : View := { v with pos := v.pos + n, win := v.win.drop n }

/-- The window is moved to the start of the buffer, and a block is read after it. -/
def refill (v : View) : View where
  pos := 1
  win := v.win ++ v.stream.headD []
  stream := v.stream.tail

/-- A block is read if only so many characters are left. -/
def atLeast (v : View) (n : Nat) : View := if v.win.length ≤ n then v.refill else v

end View

/-- The view of a scanner. -/
def Scanner.view (s : Scanner) : View where
  pos := s.pos
  win := (List.range (s.bufLen - s.pos)).map fun i => s.buf (s.pos + i)
  stream := s.stream

/-- The characters come to their end in the window, or in one more block if there is room to keep them. -/
def Reaches (isInside : UInt8 → Bool) (v : View) (room : Prop) : Prop :=
  v.win.dropWhile isInside ≠ [] ∨ room ∧ (v.win ++ v.stream.headD []).dropWhile isInside ≠ []

/-- The token that starts here is not cut. Where the rules find an error, it does not matter where this is. -/
def Uncut (v : View) : Prop :=
  match v.win with
  | [] => True
  | c :: _ =>
    if c = chr '"' then
      match ((v.advance 1).content.dropWhile isStringChar).head? with
      | none => True
      | some d => d ≠ eot ∧ (d = chr '"' → Reaches isStringChar (v.advance 1) True)
    else if isLetter c then
      match (v.content.dropWhile isIdentChar).head? with
      | none => False
      | some d => d ≠ eot ∧ (d = chr '\\' ∨ Reaches isIdentChar v (v.pos ≠ 1))
    else True

inductive Phase
  | blanks
  | separators
  | comment

/-- A call of `Get_Token` is not misled by the end of the buffer: when a comment begins, the first character of its text is
in the buffer or ends it, and the token is not cut. -/
inductive Clean : Phase → View → Prop
  | blank {v : View} {rest : List UInt8} : v.win = chr ' ' :: rest → Clean .blanks (v.advance 1) → Clean .blanks v
  | blanksEnd {v : View} : v.win.head? ≠ some (chr ' ') → Clean .separators v → Clean .blanks v
  | separator {v : View} {c : UInt8} {rest : List UInt8} : (v.atLeast 1).win = c :: rest → c = chr ' ' ∨ c = ht →
      Clean .separators ((v.atLeast 1).advance 1) → Clean .separators v
  | line {v : View} {c second : UInt8} {rest : List UInt8} : (v.atLeast 1).win = c :: rest →
      c = lf ∧ second = cr ∨ c = cr ∧ second = lf →
      Clean .separators ((v.atLeast 1).advance (if rest.head? = some second then 2 else 1)) → Clean .separators v
  | comment {v : View} {rest : List UInt8} : (v.atLeast 1).win = chr '/' :: chr '/' :: rest →
      Clean .comment ((v.atLeast 1).advance 2) → Clean .separators v
  | token {v : View} {c : UInt8} {rest : List UInt8} : (v.atLeast 1).win = c :: rest → isBlank c = false →
      ¬ (c = chr '/' ∧ (rest ++ (v.atLeast 1).stream.flatten).head? = some (chr '/')) → Uncut ((v.atLeast 1).atLeast 4) →
      Clean .separators v
  | eof {v : View} : (v.atLeast 1).win = [] → Clean .separators v
  | commentEnd {v : View} : (∀ c, v.content.head? = some c → c = cr ∨ c = lf ∨ c = eot) → Clean .separators v →
      Clean .comment v
  | commentChar {v : View} {c : UInt8} {rest : List UInt8} : v.win = c :: rest → ¬ (c = cr ∨ c = lf ∨ c = eot) →
      Clean .comment ((v.advance 1).atLeast 0) → Clean .comment v

end Ghdl.Sdf
