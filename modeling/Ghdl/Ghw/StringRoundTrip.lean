import Ghdl.Ghw.StringTable

/-!
# Strings are read back

The byte that ends a string starts the length of what the next one shares with it, so a string is read up to a byte
that no string has, and its beginning is copied from the previous one in the buffer. The last string is ended by a
length that no string follows: where there is no string at all the reader does not expect it, and stops.
-/

namespace Ghdl.Ghw

open Bytes Avls

/-- The strings that the format has codes for. -/
def Printable (s : CString) : Prop := ∀ c ∈ s, ¬ Control c

instance (s : CString) : Decidable (Printable s) := inferInstanceAs (Decidable (∀ c ∈ s, ¬ Control c))

theorem Printable.nonNul {s : CString} (printable : Printable s) : NonNul s := by
  intro c inside zero
  apply printable c inside
  rw [zero]
  decide

/-- The strings in the buffer, each one with its NUL. -/
def flat (l : List CString) : List UInt8 := l.flatMap fun s => s ++ [0]

/-- Where the strings are in the buffer, from a position on. -/
def offsetsFrom (start : Nat) : List CString → List Nat
  | [] => []
  | s :: l => start :: offsetsFrom (start + s.length + 1) l

theorem flat_cons (s : CString) (l : List CString) : flat (s :: l) = s ++ 0 :: flat l := by simp [flat]

theorem differ_spec {v last : CString} (different : v ≠ last) :
    ∃ q, differ v last = some (q + 1) ∧ v.take q = last.take q ∧ q ≤ v.length ∧ q ≤ last.length := by
  induction v generalizing last with
  | nil =>
    cases last with
    | nil => exact absurd rfl different
    | cons b last => exact ⟨0, rfl, rfl, Nat.zero_le _, Nat.zero_le _⟩
  | cons a v ih =>
    cases last with
    | nil => exact ⟨0, rfl, rfl, Nat.zero_le _, Nat.zero_le _⟩
    | cons b last =>
      unfold differ
      by_cases same : a = b
      · obtain ⟨q, found, common, inV, inLast⟩ := ih fun equal => different (by rw [same, equal])
        refine ⟨q + 1, ?_, ?_, Nat.succ_le_succ inV, Nat.succ_le_succ inLast⟩
        · rw [if_neg (not_not.mpr same), found]
          rfl
        · rw [List.take_succ_cons, List.take_succ_cons, same, common]
      · exact ⟨0, if_pos same, rfl, Nat.zero_le _, Nat.zero_le _⟩

theorem top_bit (c : UInt8) : c &&& 0x80 = 0 ↔ ¬ c ≥ 128 := by
  have all : ∀ n < 256, UInt8.ofNat n &&& 0x80 = 0 ↔ ¬ UInt8.ofNat n ≥ 128 := by decide +kernel
  have here := all c.toNat c.toNat_lt
  rwa [UInt8.ofNat_toNat] at here

theorem readGroupsLoop_cons (r : BitVec 32) (off : Nat) (c : UInt8) (bytes : List UInt8) :
    readGroupsLoop ReadError.eof 5 r off (c :: bytes) =
      readPrevLen (r ||| (c &&& 0x1f).toBitVec.setWidth 32 <<< off) (off + 5) c bytes := by
  have ends := top_bit c
  induction bytes generalizing r off c with
  | nil =>
    unfold readGroupsLoop readPrevLen
    by_cases last : c &&& 0x80 = 0
    · rw [if_pos last, if_neg (ends.mp last)]
      rfl
    · have more : c ≥ 128 := not_not.mp fun less => last (ends.mpr less)
      rw [if_neg last, if_pos more]
      rfl
  | cons d bytes ih =>
    unfold readGroupsLoop readPrevLen
    by_cases last : c &&& 0x80 = 0
    · rw [if_pos last, if_neg (ends.mp last)]
      rfl
    · have more : c ≥ 128 := not_not.mp fun less => last (ends.mpr less)
      rw [if_neg last, if_pos more]
      exact ih _ _ d (top_bit d)

theorem writeGroups_five {q : Nat} (small : q < 2 ^ 31) : ∃ c more, writeGroups 5 7 q = c :: more ∧ Control c ∧
      ∀ rest, readPrevLen ((c &&& 0x1f).toBitVec.setWidth 32) 5 c (more ++ rest) = .ok (BitVec.ofNat 32 q, rest) := by
  have control : ∀ m < 32, Control (UInt8.ofNat m) ∧ Control (UInt8.ofNat (128 + m)) := by decide
  obtain ⟨c, more, isCons, isControl⟩ : ∃ c more, writeGroups 5 7 q = c :: more ∧ Control c := by
    have low := control (q % 2 ^ 5) (Nat.mod_lt q (by decide))
    unfold writeGroups
    dsimp only
    split
    · exact ⟨_, [], rfl, low.1⟩
    · exact ⟨_, _, rfl, low.2⟩
  refine ⟨c, more, isCons, isControl, fun rest => ?_⟩
  have small' : q < 2 ^ (5 * 7) := by omega
  have read := readGroupsLoop_write ReadError.eof (g := 5) (by decide) small' (by decide) (0#32) 0 rest
  rw [isCons, List.cons_append, readGroupsLoop_cons, BitVec.shiftLeft_zero, BitVec.shiftLeft_zero, BitVec.zero_or,
    BitVec.zero_or] at read
  exact read

theorem put_spec {size : Nat} {content : List UInt8} (room : content.length < size) (c : UInt8) (bytes : List UInt8) :
    put size content c bytes = .ok (content ++ [c], bytes) := by
  unfold put
  rw [if_pos room]
  rfl

theorem copyPrev_spec {size count j : Nat} {before p : List UInt8} (inside : j + count ≤ p.length)
    (room : before.length + p.length + 1 + j + count ≤ size) (bytes : List UInt8) :
    copyPrev size (some before.length) count j (before ++ (p ++ 0 :: p.take j)) bytes =
      .ok (before ++ (p ++ 0 :: p.take (j + count)), bytes) := by
  induction count generalizing j with
  | zero => rfl
  | succ count ih =>
    have here : j < p.length := by omega
    have char : prevChar (some before.length) (before ++ (p ++ 0 :: p.take j)) j = some p[j] := by
      show (before ++ (p ++ 0 :: p.take j))[before.length + j]? = _
      rw [List.getElem?_append_right (Nat.le_add_right _ _), Nat.add_sub_cancel_left, List.getElem?_append_left here,
        List.getElem?_eq_getElem here]
    have size' : (before ++ (p ++ 0 :: p.take j)).length < size := by
      simp only [List.length_append, List.length_cons, List.length_take]
      omega
    have grown : before ++ (p ++ 0 :: p.take j) ++ [p[j]] = before ++ (p ++ 0 :: p.take (j + 1)) := by
      rw [List.take_succ_eq_append_getElem here]
      simp only [List.append_assoc, List.cons_append]
    unfold copyPrev
    rw [char]
    show (put size _ p[j] >>= _) bytes = _
    have steps : j + 1 + count = j + (count + 1) := by omega
    rw [Reader.bind_of_ok (put_spec size' p[j] bytes), grown, ih (by omega) (by omega), steps]

theorem readChars_spec {size : Nat} {s : CString} (printable : Printable s) {content : List UInt8}
    (room : content.length + s.length ≤ size) {c : UInt8} (ends : Control c) (rest : List UInt8) :
    readChars size content (s ++ c :: rest) = .ok ((content ++ s, c), rest) := by
  induction s generalizing content with
  | nil =>
    rw [List.nil_append, readChars, if_pos ends, List.append_nil]
  | cons d s ih =>
    rw [List.length_cons] at room
    have room' : (content ++ [d]).length + s.length ≤ size := by
      rw [List.length_append, List.length_singleton]
      omega
    have more := ih (fun c inside => printable c (List.mem_cons_of_mem _ inside)) room'
    rw [List.cons_append, readChars, if_neg (printable d List.mem_cons_self), if_pos (by omega), more,
      List.append_assoc]
    rfl

theorem toInt_ofNat_small {q : Nat} (small : q < 2 ^ 31) : (BitVec.ofNat 32 q).toInt.toNat = q := by
  have value : (BitVec.ofNat 32 q).toNat = q := Nat.mod_eq_of_lt (by omega)
  rw [BitVec.toInt_eq_toNat_of_lt (by omega), value, Int.toNat_natCast]

theorem writeStrings_some {last v : CString} (different : v ≠ last) (rest : List CString) :
    ∃ q, writeStrings (some last) (v :: rest) =
        (writeStrings (some v) rest).map (fun more => writeGroups 5 7 q ++ v.drop q ++ more) ∧
      v.take q = last.take q ∧ q ≤ v.length ∧ q ≤ last.length := by
  obtain ⟨q, found, common, inV, inLast⟩ := differ_spec different
  refine ⟨q, ?_, common, inV, inLast⟩
  show (differ v last >>= fun l => writeStrings (some v) rest >>= fun more =>
    some (writeGroups 5 7 (l - 1) ++ v.drop (l - 1) ++ more)) = _
  rw [found]
  cases writeStrings (some v) rest <;> rfl

variable {size q : Nat} {v : CString} {t : StrTable}

theorem readStrings_one
    (copied : ∀ bytes, copyPrev size t.offsets.getLast? q 0 t.content bytes = .ok (t.content ++ v.take q, bytes))
    (printable : Printable v) (small : q < 2 ^ 31) (room : t.content.length + v.length + 1 ≤ size)
    {c : UInt8} {bytes : List UInt8} {next : BitVec 32} {rest : List UInt8} (count : Nat) (ends : Control c)
    (length : readPrevLen ((c &&& 0x1f).toBitVec.setWidth 32) 5 c bytes = .ok (next, rest)) :
    readStrings size (count + 1) t (BitVec.ofNat 32 q) (v.drop q ++ c :: bytes) =
      readStrings size count ⟨t.content ++ (v ++ [0]), t.offsets ++ [t.content.length]⟩ next rest := by
  have whole : v.take q ++ v.drop q = v := List.take_append_drop q v
  have printableDrop : Printable (v.drop q) := fun c inside => printable c (List.mem_of_mem_drop inside)
  have lengths := congrArg List.length whole
  rw [List.length_append] at lengths
  have chars : readChars size (t.content ++ v.take q) (v.drop q ++ c :: bytes) = _ :=
    readChars_spec printableDrop (by rw [List.length_append]; omega) ends bytes
  rw [List.append_assoc, whole] at chars
  have nul : put size (t.content ++ v) 0 bytes = _ := put_spec (by rw [List.length_append]; omega) 0 bytes
  rw [List.append_assoc] at nul
  rw [readStrings, toInt_ofNat_small small, Reader.bind_of_ok (copied _), Reader.bind_of_ok chars]
  show (put size (t.content ++ v) 0 >>= _) bytes = _
  rw [Reader.bind_of_ok nul]
  exact Reader.bind_of_ok length _

theorem readStrings_spec {rest : List CString}
    (copied : ∀ bytes, copyPrev size t.offsets.getLast? q 0 t.content bytes = .ok (t.content ++ v.take q, bytes))
    (printable : ∀ s ∈ v :: rest, Printable s) (different : (v :: rest).IsChain (· ≠ ·)) (inside : q ≤ v.length)
    (small : ∀ s ∈ v :: rest, s.length < 2 ^ 31) (room : t.content.length + (flat (v :: rest)).length ≤ size)
    (tail : List UInt8) : ∃ more, writeStrings (some v) rest = some more ∧
      readStrings size (rest.length + 1) t (BitVec.ofNat 32 q) (v.drop q ++ (more ++ 0 :: tail)) =
        .ok (⟨t.content ++ flat (v :: rest), t.offsets ++ offsetsFrom t.content.length (v :: rest)⟩, tail) := by
  induction rest generalizing v t q with
  | nil =>
    have smallV := small v List.mem_cons_self
    rw [flat_cons, List.length_append, List.length_cons] at room
    refine ⟨[], rfl, ?_⟩
    have length : readPrevLen ((0 &&& 0x1f : UInt8).toBitVec.setWidth 32) 5 0 tail = .ok (0, tail) := by
      cases tail <;> rfl
    refine (readStrings_one copied (printable v List.mem_cons_self) (by omega) (by omega) 0 (by decide) length).trans ?_
    simp [flat, offsetsFrom, readStrings]
  | cons w rest ih =>
    have smallV := small v List.mem_cons_self
    rw [flat_cons, List.length_append, List.length_cons] at room
    obtain ⟨ne, different'⟩ := List.isChain_cons_cons.mp different
    obtain ⟨q', isMore, common, inW, inV⟩ := writeStrings_some (Ne.symm ne) rest
    obtain ⟨c, after, isGroups, ends, length⟩ := writeGroups_five (q := q') (by omega)
    -- The beginning of the next string is copied from this one.
    have copied' : ∀ bytes, copyPrev size (t.offsets ++ [t.content.length]).getLast? q' 0 (t.content ++ (v ++ [0]))
        bytes = .ok (t.content ++ (v ++ [0]) ++ w.take q', bytes) := by
      intro bytes
      rw [flat_cons, List.length_append] at room
      have copy : copyPrev size (some t.content.length) q' 0 (t.content ++ (v ++ 0 :: v.take 0)) bytes = _ :=
        copyPrev_spec (by omega) (by omega) bytes
      rw [List.take_zero, Nat.zero_add, ← common] at copy
      rw [List.getLast?_concat, copy]
      simp
    have room' : (t.content ++ (v ++ [0])).length + (flat (w :: rest)).length ≤ size := by
      simp only [List.length_append, List.length_singleton]
      omega
    obtain ⟨more, isRest, read⟩ := ih (t := ⟨t.content ++ (v ++ [0]), t.offsets ++ [t.content.length]⟩) copied'
      (fun s inside => printable s (List.mem_cons_of_mem v inside)) different' inW
      (fun s inside => small s (List.mem_cons_of_mem v inside)) room'
    refine ⟨writeGroups 5 7 q' ++ w.drop q' ++ more, by rw [isMore, isRest]; rfl, ?_⟩
    have first := readStrings_one copied (printable v List.mem_cons_self) (by omega) (by omega) (rest.length + 1) ends
      (length (w.drop q' ++ (more ++ 0 :: tail)))
    rw [isGroups]
    simp only [List.cons_append, List.append_assoc, List.length_cons] at first read ⊢
    rw [first, read]
    simp [flat_cons, offsetsFrom, Nat.add_assoc]

theorem offsetsFrom_getElem? (start : Nat) (l : List CString) {i : Nat} (inside : i < l.length) :
    (offsetsFrom start l)[i]? = some (start + (flat (l.take i)).length) := by
  induction l generalizing start i with
  | nil => exact absurd inside (Nat.not_lt_zero i)
  | cons s l ih =>
    cases i with
    | zero => rfl
    | succ i =>
      have later := ih (start + s.length + 1) (Nat.lt_of_succ_lt_succ inside)
      rw [offsetsFrom, List.getElem?_cons_succ, later, List.take_succ_cons, flat_cons, List.length_append,
        List.length_cons]
      congr 1
      omega

theorem string_flat {l : List CString} (nonNul : ∀ s ∈ l, NonNul s) {i : Nat} (inside : i < l.length) :
    (StrTable.mk (flat l) (offsetsFrom 0 l)).string (i + 1) = l[i]? := by
  have split : flat l = flat (l.take i) ++ (l[i] ++ 0 :: flat (l.drop (i + 1))) := by
    rw [← flat_cons, ← List.drop_eq_getElem_cons inside]
    show l.flatMap _ = (l.take i).flatMap _ ++ (l.drop i).flatMap _
    rw [← List.flatMap_append, List.take_append_drop]
  have chars : ∀ c ∈ l[i], decide (c ≠ 0) = true := fun c mem =>
    decide_eq_true (nonNul _ (List.getElem_mem inside) c mem)
  unfold StrTable.string
  rw [if_neg (Nat.succ_ne_zero i), Nat.add_sub_cancel]
  show (offsetsFrom 0 l)[i]?.map (fun p => ((flat l).drop p).takeWhile _) = _
  rw [offsetsFrom_getElem? 0 l inside, Option.map_some, Nat.zero_add, split, List.drop_left,
    List.takeWhile_append_of_pos chars, List.getElem?_eq_getElem inside]
  simp

theorem flat_length (l : List CString) : (flat l).length = (l.map List.length).sum + l.length := by
  induction l with
  | nil => rfl
  | cons s l ih =>
    rw [flat_cons, List.length_append, List.length_cons, ih, List.map_cons, List.sum_cons, List.length_cons]
    omega

theorem getI32_wavePutI32 (be : Bool) (v : BitVec 32) : getI32 be (wavePutI32 be v) = v := by
  have back := fourBytes_wordByte (v.setWidth 64) 0
  have same : ((v.setWidth 64) >>> (8 * 0)).setWidth 32 = v := by simp
  rw [same] at back
  cases be
  · exact back
  · exact back

theorem readStr_spec (be : Bool) {l : List CString} (nonempty : l ≠ []) (printable : ∀ s ∈ l, Printable s)
    (distinct : l.Nodup) (natural : (l.map List.length).sum < 2 ^ 31) :
    ∃ bytes, writeStringsCompress be l (l.map List.length).sum = some bytes ∧
      Reads (readStr be) bytes (BitVec.ofNat 32 l.length + 1, BitVec.ofNat 32 (l.map List.length).sum,
        ⟨flat l, offsetsFrom 0 l⟩) := by
  have few := length_lt_of_distinct distinct natural
  have whole := flat_length l
  have size : (BitVec.ofNat 32 (l.map List.length).sum + (BitVec.ofNat 32 l.length + 1) + 1).toNat =
      (l.map List.length).sum + l.length + 2 := by
    have one : (1 : BitVec 32).toNat = 1 := rfl
    simp only [BitVec.toNat_add, BitVec.toNat_ofNat, one]
    omega
  have count : (BitVec.ofNat 32 l.length + 1).toNat - 1 = l.length := by
    have one : (1 : BitVec 32).toNat = 1 := rfl
    simp only [BitVec.toNat_add, BitVec.toNat_ofNat, one]
    omega
  have lengths : ∀ s ∈ l, s.length < 2 ^ 31 := by
    intro s inside
    have bound := List.le_sum_of_mem (List.mem_map_of_mem inside : s.length ∈ l.map List.length)
    omega
  obtain ⟨v, rest, rfl⟩ := List.exists_cons_of_ne_nil nonempty
  have chain : (v :: rest).IsChain (· ≠ ·) := List.Pairwise.isChain distinct
  have first : ∀ bytes, copyPrev ((((v :: rest).map List.length).sum + (v :: rest).length + 2))
      ([] : List Nat).getLast? 0 0 [] bytes = .ok ([] ++ v.take 0, bytes) := fun bytes => rfl
  have strings := fun tail => readStrings_spec (t := ⟨[], []⟩) first printable chain (Nat.zero_le _) lengths
    (by rw [whole, List.length_nil]; omega) tail
  obtain ⟨more, isMore, -⟩ := strings []
  have body : writeStrings none (v :: rest) = some (v ++ more) := by
    show (writeStrings (some v) rest >>= fun more => some (v ++ more)) = _
    rw [isMore]
    rfl
  have read : Reads (readStrings ((((v :: rest).map List.length).sum + (v :: rest).length + 2)) (v :: rest).length
      ⟨[], []⟩ 0) (v ++ more ++ [0]) ⟨flat (v :: rest), offsetsFrom 0 (v :: rest)⟩ := by
    intro tail
    obtain ⟨more', isMore', run⟩ := strings tail
    have same : more' = more := Option.some.inj (isMore'.symm.trans isMore)
    rw [same] at run
    simpa using run
  refine ⟨[0, 0, 0, 0] ++ (wavePutI32 be (BitVec.ofNat 32 (v :: rest).length)).toList ++
    (wavePutI32 be (BitVec.ofNat 32 ((v :: rest).map List.length).sum)).toList ++ (v ++ more) ++ [0] ++
    (tag 'E' 'O' 'S').toList, ?_, ?_⟩
  · show (writeStrings none (v :: rest) >>= fun body => some _) = _
    rw [body]
    rfl
  simp only [List.append_assoc]
  apply (reads_expect (Vector.replicate 4 0)).bind
  apply (Reads.take ReadError.eof _).bind
  apply (Reads.take ReadError.eof _).bind
  rw [getI32_wavePutI32, getI32_wavePutI32]
  show Reads (readStrings _ _ _ _ >>= _) _ _
  rw [size, count]
  simp only [← List.append_assoc]
  apply read.bind
  exact (reads_expect _).map _

theorem readStr_empty (be : Bool) {bytes : List UInt8} (written : writeStringsCompress be [] 0 = some bytes) :
    readStr be bytes = .error .format := by
  obtain rfl := Option.some.inj written
  cases be <;> rfl

/-- The names are written and read back, and each one is found under its index. -/
def StringsRoundTrip (be : Bool) (names : List CString) : Prop :=
  ∃ s strTable bytes nbrStr strSize t,
    collectStrings names = .ok s ∧ freezeStrings s = .ok strTable ∧
    writeStringsCompress be strTable s.stringsLen = some bytes ∧
    Reads (readStr be) bytes (nbrStr, strSize, t) ∧
    (∀ str, str ∈ strTable ↔ str ∈ names) ∧ strTable.Nodup ∧ nbrStr.toNat = strTable.length + 1 ∧
    (∀ i < strTable.length, t.string (i + 1) = strTable[i]?) ∧
    t.content.length ≤ strSize.toNat + nbrStr.toNat + 1 ∧
    ∀ str ∈ names, t.string (getString strTable str).toNat = some str

/-- The names of a design are read back exactly when there is one. -/
theorem stringsRoundTrip_iff (be : Bool) (names : List CString) (printable : ∀ str ∈ names, Printable str)
    (natural : (names.dedup.map List.length).sum < 2 ^ 31) : StringsRoundTrip be names ↔ names ≠ [] := by
  obtain ⟨s, collected, holds, members⟩ := collectStrings_spec fun str inside => (printable str inside).nonNul
  obtain ⟨strTable, frozen, perm, increasing⟩ := freezeStrings_spec holds
  have members' : ∀ str, str ∈ strTable ↔ str ∈ names := fun str => perm.mem_iff.trans (members str)
  have distinct : strTable.Nodup := perm.nodup_iff.mpr holds.distinct
  have len : s.stringsLen = (strTable.map List.length).sum := by
    rw [holds.len]
    exact (perm.map List.length).sum_eq.symm
  constructor
  · intro trip none
    obtain ⟨s', strTable', bytes, nbrStr, strSize, t, collected', frozen', written, read, -⟩ := trip
    obtain rfl := Except.ok.inj (collected'.symm.trans collected)
    obtain rfl := Except.ok.inj (frozen'.symm.trans frozen)
    have empty : strTable' = [] := List.eq_nil_iff_forall_not_mem.mpr fun str inside => by
      have named := (members' str).mp inside
      rw [none] at named
      exact List.not_mem_nil named
    rw [len, empty] at written
    have fails := readStr_empty be written
    have reads := read []
    rw [List.append_nil, fails] at reads
    contradiction
  · intro some
    have nonempty : strTable ≠ [] := by
      intro empty
      apply some
      apply List.eq_nil_iff_forall_not_mem.mpr
      intro str inside
      have inTable := (members' str).mpr inside
      rw [empty] at inTable
      exact List.not_mem_nil inTable
    have sum : (strTable.map List.length).sum = (names.dedup.map List.length).sum := by
      have same : strTable.Perm names.dedup :=
        (List.perm_ext_iff_of_nodup distinct (List.nodup_dedup names)).mpr fun str => by rw [members', List.mem_dedup]
      exact (same.map List.length).sum_eq
    rw [← sum] at natural
    have nonNul : ∀ str ∈ strTable, NonNul str := fun str inside => (printable str ((members' str).mp inside)).nonNul
    have few := length_lt_of_distinct distinct natural
    obtain ⟨bytes, written, read⟩ := readStr_spec be nonempty
      (fun str inside => printable str ((members' str).mp inside)) distinct natural
    have one : (1 : BitVec 32).toNat = 1 := rfl
    have nbr : (BitVec.ofNat 32 strTable.length + 1).toNat = strTable.length + 1 := by
      rw [BitVec.toNat_add, BitVec.toNat_ofNat, one]
      omega
    have size : (BitVec.ofNat 32 (strTable.map List.length).sum).toNat = (strTable.map List.length).sum := by
      rw [BitVec.toNat_ofNat]
      omega
    refine ⟨s, strTable, bytes, _, _, _, collected, frozen, by rw [len]; exact written, read, members', distinct, nbr,
      fun i inside => string_flat nonNul inside, ?_, fun str inside => ?_⟩
    · rw [nbr, size, flat_length]
      omega
    obtain ⟨i, inTable, isStr⟩ := List.getElem_of_mem ((members' str).mpr inside)
    have isEntry : entry strTable (i + 1) = str := by
      unfold entry
      rw [Nat.add_sub_cancel, List.getD_eq_getElem strTable [] inTable, isStr]
    have index := getString_spec increasing nonNul few (Nat.succ_pos i) inTable
    rw [isEntry] at index
    rw [index, Int.toNat_natCast, string_flat nonNul inTable, List.getElem?_eq_getElem inTable, isStr]

/-- The names of a small design, with one that comes twice. -/
theorem stringsRoundTrip_design :
    StringsRoundTrip true (["tb", "clk", "clk_en", "clk"].map fun name => name.toList.map Char.toUInt8) :=
  (stringsRoundTrip_iff true _ (by decide +kernel) (by decide +kernel)).mpr (by decide)

/-- Without a name the section is not read. -/
theorem stringsRoundTrip_none : ¬ StringsRoundTrip false [] := by
  intro trip
  obtain ⟨s, strTable, bytes, nbrStr, strSize, t, collected, frozen, written, read, -⟩ := trip
  obtain rfl := Except.ok.inj collected
  obtain rfl := Except.ok.inj frozen
  have fails := readStr_empty false written
  have reads := read []
  rw [List.append_nil, fails] at reads
  contradiction

end Ghdl.Ghw
