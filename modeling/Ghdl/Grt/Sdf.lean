import Mathlib.Data.List.Basic

/-!
# Tokens of SDF files

The file is read by blocks into a buffer, which ends with an `EOT`. When the scanner comes to this end, it moves what it
still needs to the start of the buffer and reads the next block after it. The blanks, the comments, the identifiers, the
strings and the numbers each do so in their own way.
-/

namespace Ghdl.Sdf

inductive SdfTokenType
  | tokOparen
  | tokCparen
  | tokQstring
  | tokIdentifier
  | tokRnumber
  | tokDnumber
  | tokDiv
  | tokDot
  | tokCln
  | tokError
  | tokEof
deriving DecidableEq, Repr

/-- What ends the reading of a file. The error procedures do not return. -/
inductive Failure
  | error (line : Nat) (column : Int) (msg : String)
  | tooLong (line : Nat)
  | constraintError
  | unfinished
deriving DecidableEq, Repr

def chr (c : Char) : UInt8 := c.toUInt8

def eot : UInt8 := 4

def ht : UInt8 := 9

def lf : UInt8 := 10

def cr : UInt8 := 13

def isLetter (c : UInt8) : Bool := (chr 'a' ≤ c ∧ c ≤ chr 'z') ∨ (chr 'A' ≤ c ∧ c ≤ chr 'Z')

def isDigit (c : UInt8) : Bool := chr '0' ≤ c ∧ c ≤ chr '9'

def isIdentChar (c : UInt8) : Bool := isLetter c ∨ isDigit c ∨ c = chr '_'

/-- The characters that a string may not contain. -/
def isBad (c : UInt8) : Bool := c ≤ 3 ∨ (5 ≤ c ∧ c ≤ 31) ∨ 127 ≤ c

def readSize : Nat := 4096

def bufSize : Nat := readSize + 1024 + 1

/-- The variables of the scanner. The stream is the list of the blocks that are still to be read. -/
structure Scanner where
  buf : Nat → UInt8
  bufLen : Nat
  pos : Nat
  lineStart : Int
  sdfLine : Nat
  identStart : Nat
  identEnd : Nat
  scanInt : Int
  scanExp : Int
  stream : List (List UInt8)

/-- `Open_Sdf`. -/
def openSdf (stream : List (List UInt8)) : Scanner where
  buf := fun i => if i = 1 then eot else 0
  bufLen := 1
  pos := 1
  lineStart := 1
  sdfLine := 1
  identStart := 0
  identEnd := 0
  scanInt := 0
  scanExp := 0
  stream := stream

/-- `Buf (I)`. -/
def bufAt (s : Scanner) (i : Nat) : Except Failure UInt8 :=
  if 1 ≤ i ∧ i ≤ bufSize then .ok (s.buf i) else .error .constraintError

/-- `Buf (1 .. Len) := Buf (First .. First + Len - 1)`. -/
def moveBuf (buf : Nat → UInt8) (first len : Nat) : Nat → UInt8 :=
  fun i => if 1 ≤ i ∧ i ≤ len then buf (first + (i - 1)) else buf i

/-- The buffer after a block was read at a position. -/
def storeBlock (buf : Nat → UInt8) (pos : Nat) (block : List UInt8) : Nat → UInt8 :=
  fun i =>
    if i = pos + block.length then eot
    else if pos ≤ i ∧ i < pos + block.length then block.getD (i - pos) 0
    else buf i

/-- `Read_Sdf`. -/
def readSdf (s : Scanner) : Except Failure Scanner :=
  let block := s.stream.headD []
  if 1 ≤ s.pos ∧ s.pos + block.length ≤ bufSize then
    .ok { s with
      buf := storeBlock s.buf s.pos block
      bufLen := s.pos + block.length
      lineStart := s.lineStart - s.bufLen + s.pos
      stream := s.stream.tail }
  else .error .constraintError

/-- `Read_Append`. -/
def readAppend (s : Scanner) : Except Failure Scanner :=
  let len := s.pos - s.identStart
  if s.identStart = 1 ∨ len ≥ 1024 then .error (.tooLong s.sdfLine)
  else readSdf { s with buf := moveBuf s.buf s.identStart len, pos := len + 1, identStart := 1 }

/-- `Refill_Buf`. -/
def refillBuf (s : Scanner) : Except Failure Scanner :=
  if s.bufLen < s.pos then .error .constraintError
  else do
    let s ← readSdf { s with buf := moveBuf s.buf s.pos (s.bufLen - s.pos), pos := s.bufLen - s.pos + 1 }
    return { s with pos := 1 }

/-- `Refill_Buf` when `Pos + N >= Buf_Len`. -/
def refillBelow (n : Nat) (s : Scanner) : Except Failure Scanner :=
  if s.pos + n ≥ s.bufLen then refillBuf s else .ok s

/-- `Error_Sdf`. -/
def errorSdf {α : Type} (s : Scanner) (msg : String) : Except Failure α :=
  .error (.error s.sdfLine (s.pos - s.lineStart) msg)

/-- `Error_Bad_Character`. -/
def errorBadCharacter {α : Type} (s : Scanner) : Except Failure α := errorSdf s "bad character in SDF file"

/-! ## Scanners

Each loop makes a limited number of steps. -/

/-- The loop of `Scan_Identifier`. -/
def scanIdentifierLoop : Nat → Scanner → Except Failure Scanner
  | 0, _ => .error .unfinished
  | fuel + 1, s => do
    let s := { s with pos := s.pos + 1 }
    let c ← bufAt s s.pos
    if isIdentChar c then scanIdentifierLoop fuel s
    else if c = chr '\\' then errorSdf s "escape character not handled"
    else if c = eot then
      let s ← readAppend s
      scanIdentifierLoop fuel { s with pos := s.pos - 1 }
    else return { s with identEnd := s.pos - 1 }

/-- `Scan_Identifier`. -/
def scanIdentifier (fuel : Nat) (s : Scanner) : Except Failure Scanner := scanIdentifierLoop fuel { s with identStart := s.pos }

/-- The loop of `Scan_Qstring`. -/
def scanQstringLoop : Nat → Scanner → Except Failure Scanner
  | 0, _ => .error .unfinished
  | fuel + 1, s => do
    let s := { s with pos := s.pos + 1 }
    let c ← bufAt s s.pos
    if c = eot then
      let s ← readAppend s
      scanQstringLoop fuel { s with pos := s.pos - 1 }
    else if isBad c then errorBadCharacter s
    else if c = chr '"' then return { s with identEnd := s.pos - 1, pos := s.pos + 1 }
    else scanQstringLoop fuel s

/-- `Scan_Qstring`. -/
def scanQstring (fuel : Nat) (s : Scanner) : Except Failure Scanner := scanQstringLoop fuel { s with identStart := s.pos + 1 }

/-- `Scan_Int` after a digit. -/
def addDigit (scanInt : Int) (c : UInt8) : Except Failure Int :=
  let value := scanInt * 10 + (c.toNat - (chr '0').toNat)
  if value ≤ 2147483647 then .ok value else .error .constraintError

/-- The end of `Scan_Number`. -/
def finishNumber (hasDot isNegative : Bool) (s : Scanner) : SdfTokenType × Scanner :=
  (if hasDot then .tokRnumber else .tokDnumber, if isNegative then { s with scanInt := -s.scanInt } else s)

/-- The loop of `Scan_Number`. -/
def scanNumberLoop : Nat → Bool → Bool → Scanner → Except Failure (SdfTokenType × Scanner)
  | 0, _, _, _ => .error .unfinished
  | fuel + 1, hasDot, isNegative, s => do
    let c ← bufAt s s.pos
    if isDigit c then
      let scanInt ← addDigit s.scanInt c
      scanNumberLoop fuel hasDot isNegative
        { s with scanInt := scanInt, scanExp := if hasDot then s.scanExp - 1 else s.scanExp, pos := s.pos + 1 }
    else if c = chr '.' then
      if hasDot then errorBadCharacter s else scanNumberLoop fuel true isNegative { s with pos := s.pos + 1 }
    else if c = chr '-' then
      if isNegative then errorBadCharacter s else scanNumberLoop fuel hasDot true { s with pos := s.pos + 1 }
    else if c = eot then
      if s.pos ≠ s.bufLen then errorBadCharacter s
      else
        let s ← readSdf { s with pos := 1 }
        if s.bufLen = 1 then return finishNumber hasDot isNegative s
        else scanNumberLoop fuel hasDot isNegative s
    else return finishNumber hasDot isNegative s

/-- `Scan_Number`. -/
def scanNumber (fuel : Nat) (s : Scanner) : Except Failure (SdfTokenType × Scanner) :=
  scanNumberLoop fuel false false { s with scanInt := 0, scanExp := 0 }

/-- The fast skipping of blanks in `Skip_Spaces`. -/
def skipBlanks : Nat → Scanner → Except Failure Scanner
  | 0, _ => .error .unfinished
  | fuel + 1, s => do
    let c ← bufAt s s.pos
    if c = chr ' ' then skipBlanks fuel { s with pos := s.pos + 1 } else return s

/-- The skipping of a line comment in `Skip_Spaces`. -/
def skipComment : Nat → Scanner → Except Failure Scanner
  | 0, _ => .error .unfinished
  | fuel + 1, s => do
    let c ← bufAt s s.pos
    if c = cr ∨ c = lf ∨ c = eot then return s
    else
      let s ← refillBelow 0 { s with pos := s.pos + 1 }
      skipComment fuel s

/-- A line terminator, whose second character may be `second`. -/
def skipLine (s : Scanner) (second : UInt8) : Except Failure Scanner := do
  let s := { s with pos := s.pos + 1 }
  let c ← bufAt s s.pos
  let s := if c = second then { s with pos := s.pos + 1 } else s
  return { s with lineStart := s.pos, sdfLine := s.sdfLine + 1 }

/-- The main loop of `Skip_Spaces`. -/
def skipSpacesLoop : Nat → Scanner → Except Failure Scanner
  | 0, _ => .error .unfinished
  | fuel + 1, s => do
    let s ← refillBelow 1 s
    let c ← bufAt s s.pos
    if c = eot then
      if s.pos ≠ s.bufLen then return s
      else
        let s ← readSdf { s with pos := 1 }
        if s.bufLen = 1 then return s else skipSpacesLoop fuel s
    else if c = lf then
      let s ← skipLine s cr
      skipSpacesLoop fuel s
    else if c = cr then
      let s ← skipLine s lf
      skipSpacesLoop fuel s
    else if c = chr ' ' ∨ c = ht then skipSpacesLoop fuel { s with pos := s.pos + 1 }
    else if c = chr '/' then
      let next ← bufAt s (s.pos + 1)
      if next = chr '/' then
        let s ← skipComment fuel { s with pos := s.pos + 2 }
        skipSpacesLoop fuel s
      else return s
    else return s

/-- `Skip_Spaces`. -/
def skipSpaces (fuel : Nat) (s : Scanner) : Except Failure Scanner := do
  let s ← skipBlanks fuel s
  skipSpacesLoop fuel s

/-- `Get_Token`. -/
def getToken (fuel : Nat) (s : Scanner) : Except Failure (SdfTokenType × Scanner) := do
  let s ← skipSpaces fuel s
  let s ← refillBelow 4 s
  let c ← bufAt s s.pos
  let next := { s with pos := s.pos + 1 }
  if c = eot then
    if s.bufLen = 1 then return (.tokEof, s) else errorBadCharacter s
  else if c = chr '"' then
    let s ← scanQstring fuel s
    return (.tokQstring, s)
  else if c = chr '/' then return (.tokDiv, next)
  else if c = chr '.' then return (.tokDot, next)
  else if c = chr ':' then return (.tokCln, next)
  else if c = chr '(' then return (.tokOparen, next)
  else if c = chr ')' then return (.tokCparen, next)
  else if isLetter c then
    let s ← scanIdentifier fuel s
    return (.tokIdentifier, s)
  else if isDigit c ∨ c = chr '-' then scanNumber fuel s
  else errorBadCharacter s

/-- A token with what belongs to it. -/
inductive Token
  | plain (tok : SdfTokenType)
  | text (tok : SdfTokenType) (ident : List UInt8)
  | number (tok : SdfTokenType) (scanInt scanExp : Int)
deriving DecidableEq, Repr

/-- `Buf (Ident_Start .. Ident_End)`. -/
def identText (s : Scanner) : List UInt8 := (List.range (s.identEnd + 1 - s.identStart)).map fun i => s.buf (s.identStart + i)

/-- What the caller of `Get_Token` sees. -/
def observe (tok : SdfTokenType) (s : Scanner) : Token :=
  match tok with
  | .tokQstring | .tokIdentifier => .text tok (identText s)
  | .tokRnumber | .tokDnumber => .number tok s.scanInt s.scanExp
  | _ => .plain tok

/-- How a sequence of tokens ends. -/
inductive Ending
  | eof
  | error
  | unfinished
deriving DecidableEq, Repr

/-- The ending of a run that fails. -/
def Failure.ending : Failure → Ending
  | .unfinished => .unfinished
  | _ => .error

/-- The first tokens of a file, up to its end or an error. -/
def tokens (fuel : Nat) : Nat → Scanner → List Token × Ending
  | 0, _ => ([], .unfinished)
  | n + 1, s =>
    match getToken fuel s with
    | .error failure => ([], failure.ending)
    | .ok (.tokEof, _) => ([], .eof)
    | .ok (tok, s) => ((observe tok s :: (tokens fuel n s).1), (tokens fuel n s).2)

end Ghdl.Sdf
