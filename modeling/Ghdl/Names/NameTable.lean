import Ghdl.System.Fallible

/-!
# Name table

`name_table`: identifiers are numbered in the order of their strings in `Strings_Table`, and found through
hash chains. The length of a string is the distance to the next one, so that an entry without a string ends
the table.
-/

namespace Ghdl.Names

open Function

/-- `Character`. -/
abbrev Character := BitVec 8

/-- `Name_Id`, zero is `Null_Identifier`. -/
abbrev NameId := Nat

/-- What stops a lookup. -/
inductive NameError where
  /-- A failed `pragma Assert`. -/
  | assertion
  /-- A loop that does not end. -/
  | endless
deriving DecidableEq, Repr

/-- The result of a subprogram that may raise an exception. -/
abbrev Outcome := Except NameError

/-- `Identifier`. -/
structure Identifier where
  hash : BitVec 32
  next : Option NameId
  /-- The index of the first character in `Strings_Table`. -/
  name : Nat

/-- `Names_Table`, `Strings_Table` and the hash table. -/
structure NameTable where
  names : NameId → Identifier
  /-- `Names_Table.Last`. -/
  lastName : NameId
  strings : List Character
  hashTable : Nat → Option NameId
  hashTableSize : Nat

/-- `NUL`. -/
def nul : Character := 0

/-- `First_Character_Name_Id`. -/
def firstCharacterNameId : NameId := 1

/-- The strings of the null identifier and of the characters. -/
def characterStrings : List Character :=
  [nul, nul] ++ (List.range 256).flatMap fun c => [BitVec.ofNat 8 c, nul]

/-- The identifier after those of the characters. -/
def firstNameId : NameId := firstCharacterNameId + 256

namespace NameTable

/-- `Initialize`. -/
def initial : NameTable where
  names id := { hash := 0, next := none, name := if id = 0 then 1 else 2 * id }
  lastName := firstNameId
  strings := characterStrings
  hashTable _ := none
  hashTableSize := 1024

/-- `Compute_Hash`. -/
def computeHash (str : List Character) : BitVec 32 :=
  str.foldl (fun res c => res.rotateLeft 4 + res + c.setWidth 32) (BitVec.ofNat 32 str.length)

/-- The entry of a hash value in a table of that size. -/
def hashIndex (size : Nat) (hash : BitVec 32) : Nat := hash.toNat &&& (size - 1)

variable (t : NameTable)

/-- `Get_Name_Length`. -/
def getNameLength (id : NameId) : Outcome Nat :=
  if id < t.lastName then .ok ((t.names (id + 1)).name - (t.names id).name - 1) else .error .assertion

/-- `Is_Character`. -/
def isCharacter (id : NameId) : Bool :=
  decide (firstCharacterNameId ≤ id) && decide (id ≤ firstCharacterNameId + 255)

/-- The characters from an index on. -/
def slice (first len : Nat) : List Character := (t.strings.drop first).take len

/-- `Image`. -/
def image (id : NameId) : Outcome (List Character) :=
  if isCharacter id then
    .ok ([39#8] ++ t.slice (t.names id).name 1 ++ [39#8])
  else do
    let len ← t.getNameLength id
    return t.slice (t.names id).name len

/-- `Compare_Name_Buffer_With_Name`. -/
def compareNameBufferWithName (id : NameId) (str : List Character) : Bool :=
  t.slice (t.names id).name str.length = str

/-- The identifier has the string, whose hash value is given. -/
def isName (hash : BitVec 32) (str : List Character) (id : NameId) : Outcome Bool :=
  if (t.names id).hash = hash then do
    let len ← t.getNameLength id
    return len = str.length && t.compareNameBufferWithName id str
  else .ok false

/-- The loop over a hash chain. -/
def findName (hash : BitVec 32) (str : List Character) : Nat → Option NameId → Outcome (Option NameId)
  | _, none => .ok none
  | 0, some _ => .error .endless
  | fuel + 1, some res => do
    if ← t.isName hash str res then return some res
    else findName hash str fuel (t.names res).next

/-- An identifier is put in front of the chain of an entry. -/
def push (index : Nat) (id : NameId) : NameTable :=
  { t with
    names := update t.names id { t.names id with next := t.hashTable index }
    hashTable := update t.hashTable index (some id) }

/-- The loop of `Expand` over a chain of the old table. -/
def rehashFrom : Nat → Option NameId → NameTable → Outcome NameTable
  | _, none, t => .ok t
  | 0, some _, _ => .error .endless
  | fuel + 1, some id, t =>
    let nextId := (t.names id).next
    rehashFrom fuel nextId (t.push (hashIndex t.hashTableSize (t.names id).hash) id)

/-- `Expand`. -/
def expand : Outcome NameTable :=
  (List.range t.hashTableSize).foldlM (fun u i => rehashFrom t.lastName (t.hashTable i) u)
    { t with hashTableSize := t.hashTableSize * 2, hashTable := fun _ => none }

/-- The new entry of `Get_Identifier_With_Len`, with `Store` and `Append_Terminator`. -/
def insertName (hash : BitVec 32) (str : List Character) : NameId × NameTable :=
  let res := t.lastName
  let index := hashIndex t.hashTableSize hash
  let strings := t.strings ++ (str ++ [nul])
  let names := update t.names res { hash, next := t.hashTable index, name := t.strings.length }
  (res,
    { t with
      names := update names (res + 1) { hash := 0, next := none, name := strings.length }
      lastName := res + 1
      strings
      hashTable := update t.hashTable index (some res) })

/-- `Get_Identifier_With_Len`, which `Get_Identifier` calls. -/
def getIdentifier (str : List Character) : Outcome (NameId × NameTable) := do
  let hash := computeHash str
  match ← t.findName hash str t.lastName (t.hashTable (hashIndex t.hashTableSize hash)) with
  | some res => return (res, t)
  | none =>
    let t ← if 2 * t.hashTableSize < t.lastName then t.expand else .ok t
    return t.insertName hash str

/-- `Get_Identifier_No_Create`, without a name when the identifier is not found. -/
def getIdentifierNoCreate (str : List Character) : Outcome (Option NameId) :=
  let hash := computeHash str
  t.findName hash str t.lastName (t.hashTable (hashIndex t.hashTableSize hash))

end NameTable

/-- A call of the table. -/
structure Call where
  /-- `Get_Identifier` creates an entry, `Get_Identifier_No_Create` does not. -/
  create : Bool
  str : List Character

namespace NameTable

/-- What a call returns. -/
def call (t : NameTable) (c : Call) : Outcome (Option NameId × NameTable) :=
  if c.create then do
    let (res, t) ← t.getIdentifier c.str
    return (some res, t)
  else do
    let res ← t.getIdentifierNoCreate c.str
    return (res, t)

/-- What a sequence of calls returns. -/
def calls (t : NameTable) : List Call → Outcome (List (Option NameId) × NameTable)
  | [] => .ok ([], t)
  | c :: rest => do
    let (res, t) ← t.call c
    let (others, t) ← calls t rest
    return (res :: others, t)

end NameTable

end Ghdl.Names
