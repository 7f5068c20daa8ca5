import Ghdl.Grt.SdfLexing
import Mathlib.Data.List.TakeWhile

/-!
# Buffer of the SDF scanner

The buffer holds a window of the content from some position on, and an `EOT` after it. To read a block extends the window
and keeps what was in it.
-/

namespace Ghdl.Sdf

/-- The buffer holds these characters from a position on, up to its `EOT`. -/
structure Holds (buf : Nat → UInt8) (bufLen first : Nat) (win : List UInt8) : Prop where
  start : 1 ≤ first
  len : bufLen = first + win.length
  size : bufLen ≤ bufSize
  chars : ∀ i c, win[i]? = some c → buf (first + i) = c
  sentinel : buf bufLen = eot

/-- The blocks that `fread` returns: none of them is empty. -/
def Blocks (stream : List (List UInt8)) : Prop := ∀ block ∈ stream, block ≠ [] ∧ block.length ≤ readSize

/-- The scanner has this view. -/
structure Shows (s : Scanner) (v : View) : Prop where
  pos : s.pos = v.pos
  holds : Holds s.buf s.bufLen v.pos v.win
  stream : s.stream = v.stream

variable {buf : Nat → UInt8} {bufLen first : Nat} {l win : List UInt8} {c : UInt8} {s : Scanner} {v : View}
  {stream : List (List UInt8)}

theorem Blocks.tail (blocks : Blocks stream) : Blocks stream.tail := fun block inside =>
  blocks block (List.mem_of_mem_tail inside)

theorem Blocks.length_headD (blocks : Blocks stream) : (stream.headD []).length ≤ readSize := by
  cases stream with
  | nil => exact Nat.zero_le _
  | cons block stream => exact (blocks block List.mem_cons_self).2

theorem Blocks.eq_nil (blocks : Blocks stream) (isNil : stream.headD [] = []) : stream = [] := by
  cases stream with
  | nil => rfl
  | cons block stream => exact absurd isNil (blocks block List.mem_cons_self).1

theorem headD_append_flatten (stream : List (List UInt8)) : stream.headD [] ++ stream.tail.flatten = stream.flatten := by
  cases stream <;> rfl

theorem View.content_refill (v : View) : v.refill.content = v.content := by
  unfold content refill
  rw [List.append_assoc, headD_append_flatten]

theorem View.content_atLeast (v : View) (n : Nat) : (v.atLeast n).content = v.content := by
  unfold atLeast
  split
  · exact v.content_refill
  · rfl

theorem View.stream_atLeast (v : View) (n : Nat) (blocks : Blocks v.stream) : Blocks (v.atLeast n).stream := by
  unfold atLeast
  split
  · exact blocks.tail
  · exact blocks

theorem View.content_advance {v : View} (isWin : v.win = l ++ win) : v.content = l ++ (v.advance l.length).content := by
  unfold content advance
  rw [isWin, List.drop_left, List.append_assoc]

theorem Holds.drop (holds : Holds buf bufLen first (l ++ win)) : Holds buf bufLen (first + l.length) win where
  start := Nat.le_trans holds.start (Nat.le_add_right _ _)
  len := by
    rw [holds.len, List.length_append]
    omega
  size := holds.size
  chars := by
    intro i c isChar
    rw [Nat.add_assoc]
    apply holds.chars
    rw [List.getElem?_append_right (Nat.le_add_right _ _), Nat.add_sub_cancel_left, isChar]
  sentinel := holds.sentinel

theorem Holds.bufAt_cons {i : Nat} (holds : Holds s.buf s.bufLen i (c :: win)) : bufAt s i = .ok c := by
  have inside := holds.len
  rw [List.length_cons] at inside
  have size := holds.size
  unfold bufAt
  rw [if_pos ⟨holds.start, by omega⟩]
  exact congrArg _ (holds.chars 0 c rfl)

theorem Holds.bufAt_nil {i : Nat} (holds : Holds s.buf s.bufLen i []) : bufAt s i = .ok eot := by
  have last : s.bufLen = i := holds.len
  unfold bufAt
  rw [if_pos ⟨holds.start, by rw [← last]; exact holds.size⟩, ← last, holds.sentinel]

section

variable (shows : Shows s v)
include shows

theorem Shows.advance (isWin : v.win = l ++ win) :
    Shows { s with pos := s.pos + l.length } (v.advance l.length) where
  pos := by rw [shows.pos]; rfl
  holds := by
    have holds := shows.holds
    rw [isWin] at holds
    unfold View.advance
    rw [isWin, List.drop_left]
    exact holds.drop
  stream := shows.stream

theorem Shows.bufLen_eq : s.bufLen = s.pos + v.win.length := by
  rw [shows.pos, shows.holds.len]

theorem Shows.bufAt_cons (isWin : v.win = c :: win) : bufAt s s.pos = .ok c := by
  have holds := shows.holds
  rw [isWin] at holds
  rw [shows.pos]
  exact holds.bufAt_cons

theorem Shows.bufAt_nil (isWin : v.win = []) : bufAt s s.pos = .ok eot := by
  have holds := shows.holds
  rw [isWin] at holds
  rw [shows.pos]
  exact holds.bufAt_nil

/-- The view of a scanner is the only one. -/
theorem Shows.view_eq : s.view = v := by
  obtain ⟨pos, win, stream⟩ := v
  have isPos : s.pos = pos := shows.pos
  have isStream : s.stream = stream := shows.stream
  unfold Scanner.view
  rw [isPos, isStream]
  congr 1
  have length : s.bufLen - pos = win.length := by
    have len : s.bufLen = pos + win.length := shows.holds.len
    omega
  rw [length]
  apply List.ext_getElem?
  intro i
  rw [List.getElem?_map]
  by_cases inside : i < win.length
  · rw [List.getElem?_range inside, List.getElem?_eq_getElem inside]
    exact congrArg some (shows.holds.chars i _ (List.getElem?_eq_getElem inside))
  · rw [List.getElem?_eq_none (by simpa using inside), List.getElem?_eq_none (by simpa using inside)]
    rfl

end

theorem Holds.move (holds : Holds buf bufLen first (l ++ win)) :
    ∀ i c, l[i]? = some c → moveBuf buf first l.length (1 + i) = c := by
  intro i c isChar
  have inside := (List.getElem?_eq_some_iff.mp isChar).1
  unfold moveBuf
  rw [if_pos (by omega), Nat.add_sub_cancel_left]
  apply holds.chars
  rw [List.getElem?_append_left inside, isChar]

theorem readSdf_eq (chars : ∀ i c, l[i]? = some c → s.buf (1 + i) = c) (before : s.pos = l.length + 1)
    (small : l.length ≤ 1024) (blocks : Blocks s.stream) :
    ∃ s', readSdf s = .ok s' ∧ Holds s'.buf s'.bufLen 1 (l ++ s.stream.headD []) ∧ s'.pos = s.pos ∧
      s'.stream = s.stream.tail ∧ s'.identStart = s.identStart ∧ s'.scanInt = s.scanInt ∧ s'.scanExp = s.scanExp := by
  have room := blocks.length_headD
  have fits : s.pos + (s.stream.headD []).length ≤ bufSize := by
    unfold bufSize
    omega
  refine ⟨_, if_pos ⟨by omega, fits⟩, ⟨Nat.le_refl 1, ?_, fits, ?_, if_pos rfl⟩, rfl, rfl, rfl, rfl, rfl⟩
  · show s.pos + _ = _
    rw [List.length_append]
    omega
  intro i c isChar
  have inside := (List.getElem?_eq_some_iff.mp isChar).1
  rw [List.length_append] at inside
  show storeBlock _ _ _ _ = _
  unfold storeBlock
  rw [if_neg (by omega)]
  by_cases old : i < l.length
  · rw [List.getElem?_append_left old] at isChar
    rw [if_neg (by omega)]
    exact chars i c isChar
  · rw [List.getElem?_append_right (by omega)] at isChar
    have offset : 1 + i - s.pos = i - l.length := by omega
    rw [if_pos (by omega), offset, List.getD_eq_getElem?_getD, isChar]
    rfl

/-- `Read_Append` keeps what was read of a token. -/
theorem readAppend_eq (holds : Holds s.buf s.bufLen s.identStart (l ++ win)) (isPos : s.pos = s.identStart + l.length)
    (notFirst : s.identStart ≠ 1) (small : l.length < 1024) (blocks : Blocks s.stream) :
    ∃ s', readAppend s = .ok s' ∧ Holds s'.buf s'.bufLen 1 (l ++ s.stream.headD []) ∧ s'.pos = l.length + 1 ∧
      s'.stream = s.stream.tail ∧ s'.identStart = 1 := by
  have len : s.pos - s.identStart = l.length := by omega
  unfold readAppend
  rw [len, if_neg (by omega)]
  obtain ⟨s', run, holds', pos, stream, start, -⟩ := readSdf_eq
    (s := { s with buf := moveBuf s.buf s.identStart l.length, pos := l.length + 1, identStart := 1 })
    holds.move rfl (Nat.le_of_lt small) blocks
  exact ⟨s', run, holds', pos, stream, start⟩

theorem readAppend_tooLong (isFirst : s.identStart = 1) : readAppend s = .error (.tooLong s.sdfLine) := if_pos (Or.inl isFirst)

theorem refillBuf_eq (shows : Shows s v) (small : v.win.length ≤ 1024) (blocks : Blocks v.stream) :
    ∃ s', refillBuf s = .ok s' ∧ Shows s' v.refill := by
  have len := shows.bufLen_eq
  have holds := shows.holds
  rw [← shows.pos, ← List.append_nil v.win] at holds
  have count : s.bufLen - s.pos = v.win.length := by omega
  obtain ⟨s', run, holds', -, stream, -⟩ := readSdf_eq
    (s := { s with buf := moveBuf s.buf s.pos v.win.length, pos := v.win.length + 1 })
    holds.move rfl small (by rw [shows.stream]; exact blocks)
  refine ⟨{ s' with pos := 1 }, ?_, rfl, ?_, ?_⟩
  · unfold refillBuf
    rw [if_neg (by omega), count]
    show (readSdf _ >>= _) = _
    rw [run]
    rfl
  · rw [shows.stream] at holds'
    exact holds'
  · show s'.stream = v.stream.tail
    rw [stream, shows.stream]

theorem refillBelow_eq {n : Nat} (shows : Shows s v) (small : n ≤ 1024) (blocks : Blocks v.stream) :
    ∃ s', refillBelow n s = .ok s' ∧ Shows s' (v.atLeast n) := by
  have len := shows.bufLen_eq
  unfold refillBelow View.atLeast
  by_cases few : v.win.length ≤ n
  · rw [if_pos (by omega), if_pos few]
    exact refillBuf_eq shows (by omega) blocks
  · rw [if_neg (by omega), if_neg few]
    exact ⟨s, rfl, shows⟩

theorem View.end_of_atLeast {n : Nat} (blocks : Blocks v.stream) (isNil : (v.atLeast n).win = []) :
    v.content = [] ∧ (v.atLeast n).stream = [] := by
  unfold atLeast at isNil ⊢
  by_cases few : v.win.length ≤ n
  · rw [if_pos few] at isNil ⊢
    obtain ⟨noWin, noBlock⟩ := List.append_eq_nil_iff.mp isNil
    have noStream := blocks.eq_nil noBlock
    constructor
    · unfold content
      rw [noWin, noStream]
      rfl
    · show v.stream.tail = []
      rw [noStream]
      rfl
  · rw [if_neg few] at isNil
    exact absurd (Nat.zero_le n) (by rw [isNil] at few; exact few)

end Ghdl.Sdf
