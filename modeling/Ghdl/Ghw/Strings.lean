import Ghdl.Ghw.Avls
import Ghdl.Ghw.Values

/-!
# The strings of a GHW file

`grt-waves` collects the names of a design in a balanced tree, sorts them by walking over it, and writes each one
after the length of what it has in common with the previous one. `ghwlib` expands them into one buffer.
-/

namespace Ghdl.Ghw

open Bytes Avls

/-- `Ghdl_C_String`: the characters before the NUL. -/
abbrev CString := List UInt8

/-- `Strcmp`, of C. -/
def strcmp : CString → CString → Int
  | [], [] => 0
  | [], b :: _ => -(b.toNat : Int)
  | a :: _, [] => a.toNat
  | a :: l, b :: m => if a = b then strcmp l m else (a.toNat : Int) - b.toNat

/-- `Str_Table`, `Str_AVL` and `Strings_Len`. -/
structure Strings where
  strTable : List CString
  strAvl : AvlTree
  stringsLen : Nat

/-- No string is in the tables. -/
def Strings.empty : Strings := ⟨[], ⟨fun _ => ⟨0, avlNil, avlNil, 0⟩⟩, 0⟩

/-- An entry of `Str_Table`, which starts at 1. -/
def entry (strTable : List CString) (n : AvlValue) : CString := strTable.getD (n - 1) []

/-- `Str_Compare`. -/
def strCompare (strTable : List CString) (l r : AvlValue) : Int :=
  let ls := entry strTable l
  let rs := entry strTable r
  if l = r then 0 else strcmp ls rs

/-- `Create_String_Id`. -/
def createStringId (s : Strings) (str : Option CString) : Except AvlError Strings :=
  match str with
  | none => return s
  | some str => do
    let strTable := s.strTable ++ [str]
    let last := strTable.length
    let strAvl := s.strAvl.set last fun _ => ⟨last, avlNil, avlNil, 1⟩
    let (strAvl, res) ← getNode (strCompare strTable) strAvl last last
    if res ≠ last then return { s with strAvl }
    else return ⟨strTable, strAvl, s.stringsLen + str.length⟩

/-- The names of a design, one after the other. -/
def collectStrings (names : List CString) : Except AvlError Strings :=
  names.foldlM (fun s str => createStringId s (some str)) Strings.empty

/-- `Store_Strings`. -/
def storeStrings (s : Strings) : Nat → AvlNid → Except AvlError (List CString)
  | 0, _ => .error .depth
  | fuel + 1, n =>
    if n = avlNil then .ok []
    else do
      let left ← storeStrings s fuel (s.strAvl n).left
      let right ← storeStrings s fuel (s.strAvl n).right
      return left ++ entry s.strTable (s.strAvl n).val :: right

/-- `Freeze_Strings`, which `Wave_Start` calls when there is a string: the table. -/
def freezeStrings (s : Strings) : Except AvlError (List CString) :=
  if s.strTable.length > 0 then storeStrings s (s.strTable.length + 1) avlRoot else .ok s.strTable

/-- The loop of `Get_String`. -/
def getStringLoop (strTable : List CString) (str : CString) : Nat → Int → Int → Int
  | 0, _, _ => 0
  | fuel + 1, l, h =>
    let m := ((l + h).bmod (2 ^ 32)).tdiv 2
    let diff := strcmp str (entry strTable m.toNat)
    if diff = 0 then m
    else
      let h := if diff < 0 then m - 1 else h
      let l := if diff < 0 then l else m + 1
      if l > h then 0 else getStringLoop strTable str fuel l h

/-- `Get_String`. -/
def getString (strTable : List CString) (str : CString) : Int :=
  getStringLoop strTable str (strTable.length + 1) 1 strTable.length

/-- The first position where the strings differ, from 1 on; equal strings have none. -/
def differ : CString → CString → Option Nat
  | [], [] => none
  | [], _ :: _ => some 1
  | _ :: _, [] => some 1
  | a :: v, b :: last => if a ≠ b then some 1 else (differ v last).map (· + 1)

/-- The loop of `Write_Strings_Compress`, after LAST. -/
def writeStrings : Option CString → List CString → Option (List UInt8)
  | _, [] => some []
  | none, v :: rest => do
    let more ← writeStrings (some v) rest
    return v ++ more
  | some last, v :: rest => do
    let l ← differ v last
    let more ← writeStrings (some v) rest
    return writeGroups 5 7 (l - 1) ++ v.drop (l - 1) ++ more

/-- `Wave_Put_I32`. -/
def wavePutI32 (be : Bool) (v : BitVec 32) : Vector UInt8 4 :=
  let v := v.setWidth 64
  if be then #v[wordByte v 3, wordByte v 2, wordByte v 1, wordByte v 0]
  else #v[wordByte v 0, wordByte v 1, wordByte v 2, wordByte v 3]

/-- `Write_Strings_Compress`, after the name of the section. -/
def writeStringsCompress (be : Bool) (strTable : List CString) (stringsLen : Nat) : Option (List UInt8) := do
  let body ← writeStrings none strTable
  return [0, 0, 0, 0] ++ (wavePutI32 be (BitVec.ofNat 32 strTable.length)).toList ++
    (wavePutI32 be (BitVec.ofNat 32 stringsLen)).toList ++ body ++ [0] ++ (tag 'E' 'O' 'S').toList

/-- `ghw_get_i32`. -/
def getI32 (wordBe : Bool) (b : Vector UInt8 4) : BitVec 32 :=
  if wordBe then fourBytes b[3] b[2] b[1] b[0] else fourBytes b[0] b[1] b[2] b[3]

/-- `str_content` up to P, and the entries of `str_table` from 1 on, as positions in it. -/
structure StrTable where
  content : List UInt8
  offsets : List Nat
deriving DecidableEq, Repr

/-- Write a character through P, into a buffer of SIZE characters. -/
def put (size : Nat) (content : List UInt8) (c : UInt8) : GhwReader (List UInt8) :=
  if content.length < size then return content ++ [c] else Reader.fail .bounds

/-- A character of the previous string, which is "<anon>" for the first one. -/
def prevChar (prev : Option Nat) (content : List UInt8) (j : Nat) : Option UInt8 :=
  match prev with
  | none => ("<anon>".toList.map Char.toUInt8 ++ [0])[j]?
  | some p => content[p + j]?

/-- Copy COUNT characters of the previous string, from J on. -/
def copyPrev (size : Nat) (prev : Option Nat) : Nat → Nat → List UInt8 → GhwReader (List UInt8)
  | 0, _, content => return content
  | count + 1, j, content =>
    match prevChar prev content j with
    | none => Reader.fail .bounds
    | some c => do
      let content ← put size content c
      copyPrev size prev count (j + 1) content

/-- A byte that ends a string. -/
def Control (c : UInt8) : Prop := c ≤ 31 ∨ 128 ≤ c ∧ c ≤ 159

instance (c : UInt8) : Decidable (Control c) := inferInstanceAs (Decidable (_ ∨ _))

/-- Read the characters of a string: the buffer, and the byte that ended it. -/
def readChars (size : Nat) (content : List UInt8) : GhwReader (List UInt8 × UInt8)
  | [] => .error .eof
  | c :: rest =>
    if Control c then .ok ((content, c), rest)
    else if content.length < size then readChars size (content ++ [c]) rest
    else .error .bounds

/-- The loop that reads PREV_LEN while C says that more follows. -/
def readPrevLen (prevLen : BitVec 32) (sh : Nat) (c : UInt8) : List UInt8 → Except ReadError (BitVec 32 × List UInt8)
  | [] => if c ≥ 128 then .error .eof else .ok (prevLen, [])
  | c' :: rest =>
    if c ≥ 128 then readPrevLen (prevLen ||| (c' &&& 0x1f).toBitVec.setWidth 32 <<< sh) (sh + 5) c' rest
    else .ok (prevLen, c' :: rest)

/-- The loop of `ghw_read_str`, for so many strings. -/
def readStrings (size : Nat) : Nat → StrTable → BitVec 32 → GhwReader StrTable
  | 0, t, _ => return t
  | count + 1, t, prevLen => do
    let content ← copyPrev size t.offsets.getLast? prevLen.toInt.toNat 0 t.content
    let (content, c) ← readChars size content
    let content ← put size content 0
    let prevLen ← readPrevLen ((c &&& 0x1f).toBitVec.setWidth 32) 5 c
    readStrings size count ⟨content, t.offsets ++ [t.content.length]⟩ prevLen

/-- `ghw_read_str`: the number of strings, the size that it has for them, and the strings. -/
def readStr (wordBe : Bool) : GhwReader (BitVec 32 × BitVec 32 × StrTable) := do
  expect (Vector.replicate 4 0)
  let nbr ← Reader.take ReadError.eof 4
  let nbrStr := getI32 wordBe nbr + 1
  let size ← Reader.take ReadError.eof 4
  let strSize := getI32 wordBe size
  let t ← readStrings (strSize + nbrStr + 1).toNat (nbrStr.toNat - 1) ⟨[], []⟩ 0
  expect (tag 'E' 'O' 'S')
  return (nbrStr, strSize, t)

/-- The string at an index of `str_table`, from 1 on. -/
def StrTable.string (t : StrTable) (i : Nat) : Option CString :=
  if i = 0 then none else t.offsets[i - 1]?.map fun p => (t.content.drop p).takeWhile (· ≠ 0)

end Ghdl.Ghw
