import Mathlib
import Ghdl.System.Fallible

/-!
# Lines of a position

The table of a source file has the position of the first character of some of its lines. A position is converted to a
line by a dichotomic search: a line without a position is a hole, and the search steps over it, first down and then up.
The line found last is the bound of the next search.
-/

namespace Ghdl.FilesMap

open Fallible

/-- `Source_Ptr_Org`. -/
def sourcePtrOrg : Nat := 0

/-- `Source_Ptr_Bad`: the line is a hole. -/
def sourcePtrBad : Nat := 2 ^ 32 - 1

/-- `Natural'Last`. -/
def naturalLast : Nat := 2 ^ 31 - 1

/-- The fields of `Source_File_Record` for the lines of a file. -/
structure SourceFileRecord where
  nbrLines : Nat
  linesTable : Nat → Nat
  cacheLine : Nat
  cachePos : Nat

/-- An entry that is not one of the lines is read, an assertion fails, a value is not a Natural, or a loop doesn't exit. -/
inductive LineError where
  | index (line : Nat)
  | assertion
  | range
  | noExit
deriving DecidableEq, Repr

/-- `Lines_Table (I)`. -/
def SourceFileRecord.start (f : SourceFileRecord) (i : Nat) : Except LineError Nat :=
  if 1 ≤ i ∧ i ≤ f.nbrLines then .ok (f.linesTable i) else .error (.index i)

/-- The first loop over a hole: downward to a line that has a position, or to LOW. -/
def downward (f : SourceFileRecord) (low : Nat) : Nat → Except LineError Nat
  | 0 => .error (.index 0)
  | mid1 + 1 => do
    let start ← f.start (mid1 + 1)
    if start ≠ sourcePtrBad ∨ mid1 + 1 = low then .ok (mid1 + 1) else downward f low mid1

/-- The second loop over a hole: upward to a line that has a position. -/
def upward (f : SourceFileRecord) : Nat → Nat → Except LineError Nat
  | 0, _ => .error .noExit
  | fuel + 1, mid1 => do
    let start ← f.start mid1
    if start ≠ sourcePtrBad then .ok mid1 else upward f fuel (mid1 + 1)

/-- What an iteration of the search does: it returns, or goes on between these bounds. -/
inductive Probe where
  | found (line : Nat)
  | between (low hi : Nat)
deriving DecidableEq, Repr

/-- MID is on a known line. -/
def probeKnown (f : SourceFileRecord) (pos low hi mid : Nat) : Except LineError Probe := do
  let start ← f.start mid
  if start = sourcePtrBad then .error .assertion
  else if pos < start then .ok (.between low (mid - 1))
  else if mid = f.nbrLines then .ok (.found mid)
  else do
    let next ← f.start (mid + 1)
    if next ≠ sourcePtrBad ∧ pos < next then .ok (.found mid)
    else if pos = start then .ok (.found mid)
    else if hi ≤ mid + 1 ∧ next = sourcePtrBad then .ok (.found mid)
    else if next ≠ sourcePtrBad then .ok (.between (mid + 1) hi)
    else .ok (.between mid hi)

/-- MID1 has a line. -/
def probeMid1 (f : SourceFileRecord) (pos low hi mid1 : Nat) : Except LineError Probe := do
  let start ← f.start mid1
  if pos < start then .ok (.between low mid1)
  else if start < pos then .ok (.between mid1 hi)
  else probeKnown f pos low hi mid1

/-- There is a hole at MID. -/
def probeHole (f : SourceFileRecord) (pos low hi mid : Nat) : Except LineError Probe := do
  let down ← downward f low mid
  if down ≠ low then probeMid1 f pos low hi down
  else do
    let up ← upward f (f.nbrLines + 1) mid
    if up = hi then do
      let start ← f.start hi
      if start ≤ pos then .ok (.found hi) else .ok (.found low)
    else probeMid1 f pos low hi up

/-- An iteration of the loop of `Location_To_Line`. -/
def probe (f : SourceFileRecord) (pos low hi : Nat) : Except LineError Probe := do
  let mid := (hi + low) / 2
  let start ← f.start mid
  if start = sourcePtrBad then probeHole f pos low hi mid else probeKnown f pos low hi mid

/-- The loop of `Location_To_Line`. -/
def locationLoop (f : SourceFileRecord) (pos : Nat) : Nat → Nat → Nat → Except LineError Nat
  | 0, _, _ => .error .noExit
  | fuel + 1, low, hi => do
    match ← probe f pos low hi with
    | .found line => .ok line
    | .between low hi => locationLoop f pos fuel low hi

/-- `Location_To_Line`. -/
def locationToLine (f : SourceFileRecord) (pos : Nat) : Except LineError Nat :=
  if f.cachePos ≤ pos then locationLoop f pos (f.nbrLines + 2) f.cacheLine f.nbrLines
  else locationLoop f pos (f.nbrLines + 2) 1 f.cacheLine

/-- `Line_Threshold`. -/
def lineThreshold : Nat := 4

/-- The loop of the quick look of `Location_To_Coord`, from LOW + I on, COUNT times. -/
def quickLook (f : SourceFileRecord) (pos low : Nat) : Nat → Nat → Except LineError (Option Nat)
  | 0, _ => .ok none
  | count + 1, i => do
    let lineP ← f.start (low + i)
    if lineP > pos ∧ lineP ≠ sourcePtrBad then .ok (some (low + i - 1))
    else if lineP = sourcePtrBad then .ok none
    else quickLook f pos low count (i + 1)

/-- The line, from the quick look or from the search. -/
def lineOf (f : SourceFileRecord) (pos : Nat) : Except LineError Nat := do
  if f.cachePos ≤ pos ∧ pos - f.cachePos ≤ 120 ∧ f.cacheLine + lineThreshold ≤ f.nbrLines then do
    match ← quickLook f pos f.cacheLine lineThreshold 1 with
    | some line => .ok line
    | none => locationToLine f pos
  else locationToLine f pos

/-- What `Location_To_Coord` returns. -/
structure Coord where
  linePos : Nat
  line : Nat
  offset : Nat
deriving DecidableEq, Repr

/-- `Location_To_Coord`: the coordinates, and the record with its cache updated. -/
def locationToCoord (f : SourceFileRecord) (pos : Nat) : Except LineError (Coord × SourceFileRecord) := do
  let line ← lineOf f pos
  let linePos ← f.start line
  if pos - linePos ≤ naturalLast then
    .ok (⟨linePos, line, pos - linePos⟩, { f with cachePos := pos, cacheLine := line })
  else .error .range

/-- A sequence of queries. -/
def locationToCoords : SourceFileRecord → List Nat → Except LineError (List Coord × SourceFileRecord)
  | f, [] => .ok ([], f)
  | f, pos :: queries => do
    let (coord, f) ← locationToCoord f pos
    let (coords, f) ← locationToCoords f queries
    .ok (coord :: coords, f)

variable {f : SourceFileRecord} {pos line low hi mid i j : Nat}

theorem bind_ok_eq {α β ε : Type} (a : α) (g : α → Except ε β) : ((.ok a : Except ε α) >>= g) = g a := rfl

/-- The line has a position. -/
def Known (f : SourceFileRecord) (i : Nat) : Prop := 1 ≤ i ∧ i ≤ f.nbrLines ∧ f.linesTable i ≠ sourcePtrBad

instance (f : SourceFileRecord) (i : Nat) : Decidable (Known f i) :=
  inferInstanceAs (Decidable (1 ≤ i ∧ i ≤ f.nbrLines ∧ f.linesTable i ≠ sourcePtrBad))

/-- The first and the last lines are known, and the known lines are in increasing order. -/
structure SourceFileRecord.WellFormed (f : SourceFileRecord) : Prop where
  lines : 1 ≤ f.nbrLines
  first : f.linesTable 1 = sourcePtrOrg
  last : f.linesTable f.nbrLines ≠ sourcePtrBad
  increasing : ∀ i j, Known f i → Known f j → i < j → f.linesTable i < f.linesTable j

/-- The last known line that doesn't begin after the position. -/
structure IsLine (f : SourceFileRecord) (pos line : Nat) : Prop where
  known : Known f line
  start : f.linesTable line ≤ pos
  greatest : ∀ i, Known f i → f.linesTable i ≤ pos → i ≤ line

theorem SourceFileRecord.WellFormed.first_known (wellFormed : f.WellFormed) : Known f 1 :=
  ⟨Nat.le_refl 1, wellFormed.lines, by rw [wellFormed.first]; decide⟩

theorem SourceFileRecord.WellFormed.start_le_iff (wellFormed : f.WellFormed) (isLine : IsLine f pos line)
    (known : Known f i) : f.linesTable i ≤ pos ↔ i ≤ line := by
  refine ⟨isLine.greatest i known, fun le => ?_⟩
  rcases Nat.lt_or_eq_of_le le with less | rfl
  · exact (wellFormed.increasing i line known isLine.known less).le.trans isLine.start
  · exact isLine.start

theorem Known.start (known : Known f i) : f.start i = .ok (f.linesTable i) := if_pos ⟨known.1, known.2.1⟩

theorem start_within (positive : 1 ≤ i) (within : i ≤ f.nbrLines) : f.start i = .ok (f.linesTable i) :=
  if_pos ⟨positive, within⟩

/-- The lines from one to another are holes. -/
def Holes (f : SourceFileRecord) (low hi : Nat) : Prop := ∀ i, low ≤ i → i ≤ hi → f.linesTable i = sourcePtrBad

theorem downward_spec (known : Known f low) (above : low ≤ mid) (within : mid ≤ f.nbrLines) :
    ∃ down, downward f low mid = .ok down ∧ low ≤ down ∧ down ≤ mid ∧ Known f down ∧ Holes f (down + 1) mid := by
  induction mid with
  | zero => exact absurd (known.1.trans above) (by decide)
  | succ mid ih =>
    unfold downward
    rw [start_within (Nat.succ_pos mid) within, bind_ok_eq]
    by_cases isKnown : f.linesTable (mid + 1) ≠ sourcePtrBad
    · rw [if_pos (Or.inl isKnown)]
      exact ⟨mid + 1, rfl, above, Nat.le_refl _, ⟨Nat.succ_pos mid, within, isKnown⟩, fun i below above => by omega⟩
    have notLow : mid + 1 ≠ low := fun same => isKnown (same ▸ known.2.2)
    rw [if_neg (by rintro (some | same) <;> contradiction)]
    obtain ⟨down, run, atLeast, below, isDown, holes⟩ := ih (by omega) (Nat.le_of_succ_le within)
    refine ⟨down, run, atLeast, Nat.le_succ_of_le below, isDown, fun i from_ to_ => ?_⟩
    rcases Nat.lt_or_eq_of_le to_ with less | rfl
    · exact holes i from_ (Nat.le_of_lt_succ less)
    · exact not_not.mp isKnown

theorem upward_spec (wellFormed : f.WellFormed) {fuel : Nat} (positive : 1 ≤ mid) (within : mid ≤ f.nbrLines)
    (enough : f.nbrLines < mid + fuel) :
    ∃ up, upward f fuel mid = .ok up ∧ mid ≤ up ∧ Known f up ∧ ∀ i, mid ≤ i → i < up → f.linesTable i = sourcePtrBad := by
  induction fuel generalizing mid with
  | zero => omega
  | succ fuel ih =>
    unfold upward
    rw [start_within positive within, bind_ok_eq]
    by_cases isKnown : f.linesTable mid ≠ sourcePtrBad
    · rw [if_pos isKnown]
      exact ⟨mid, rfl, Nat.le_refl _, ⟨positive, within, isKnown⟩, fun i below above => by omega⟩
    have notLast : mid ≠ f.nbrLines := fun same => isKnown (same ▸ wellFormed.last)
    rw [if_neg isKnown]
    obtain ⟨up, run, above, isUp, holes⟩ := @ih (mid + 1) (by omega) (by omega) (by omega)
    refine ⟨up, run, Nat.le_of_succ_le above, isUp, fun i from_ to_ => ?_⟩
    rcases Nat.lt_or_eq_of_le from_ with less | rfl
    · exact holes i less to_
    · exact not_not.mp isKnown

/-- The line is between the bounds, and the lower one is known. -/
structure Bounds (f : SourceFileRecord) (line low hi : Nat) : Prop where
  known : Known f low
  least : low ≤ line
  most : line ≤ hi
  within : hi ≤ f.nbrLines

/-- The upper bound has been raised: between the bounds are holes only, and the next line begins after the position. -/
structure Raised (f : SourceFileRecord) (pos low hi : Nat) : Prop where
  apart : low + 2 ≤ hi
  known : Known f hi
  holes : Holes f (low + 1) (hi - 1)
  after : pos < f.linesTable hi

/-- What an iteration may do: it finds the line, or the bounds are closer, or the upper one has been raised. -/
def Progress (f : SourceFileRecord) (pos line low hi : Nat) : Probe → Prop
  | .found found => found = line
  | .between low' hi' => Bounds f line low' hi' ∧ (hi' - low' < hi - low ∨ Raised f pos low' hi')

section

variable (wellFormed : f.WellFormed)
include wellFormed

section

variable (isLine : IsLine f pos line)
include isLine

section

variable (bounds : Bounds f line low hi)
include bounds

theorem probeKnown_spec
    (known : Known f mid) (above : low ≤ mid) (below : mid ≤ hi) (near : mid = low → hi ≤ mid + 1) :
    ∃ r, probeKnown f pos low hi mid = .ok r ∧ Progress f pos line low hi r := by
  have startMid := wellFormed.start_le_iff isLine known
  obtain ⟨isKnown, low_le, le_hi, within⟩ := bounds
  unfold probeKnown
  rw [known.start, bind_ok_eq, if_neg known.2.2]
  by_cases before : pos < f.linesTable mid
  · have notMid : line < mid := by
      by_contra notLess
      exact absurd (startMid.mpr (not_lt.mp notLess)) (not_le.mpr before)
    rw [if_pos before]
    exact ⟨_, rfl, ⟨isKnown, low_le, by omega, by omega⟩, Or.inl (by omega)⟩
  have reached := startMid.mp (not_lt.mp before)
  rw [if_neg before]
  by_cases last : mid = f.nbrLines
  · rw [if_pos last]
    exact ⟨_, rfl, show mid = line by have := isLine.known.2.1; omega⟩
  have next : 1 ≤ mid + 1 ∧ mid + 1 ≤ f.nbrLines := ⟨Nat.succ_pos mid, by have := known.2.1; omega⟩
  rw [if_neg last, start_within next.1 next.2, bind_ok_eq]
  by_cases isNext : f.linesTable (mid + 1) ≠ sourcePtrBad
  · have startNext := wellFormed.start_le_iff isLine ⟨next.1, next.2, isNext⟩
    by_cases under : pos < f.linesTable (mid + 1)
    · rw [if_pos ⟨isNext, under⟩]
      refine ⟨_, rfl, show mid = line from ?_⟩
      have notNext : ¬ mid + 1 ≤ line := fun le => absurd (startNext.mpr le) (not_le.mpr under)
      omega
    have further := startNext.mp (not_lt.mp under)
    rw [if_neg fun both => under both.2]
    by_cases equal : pos = f.linesTable mid
    · have above' := wellFormed.increasing mid (mid + 1) known ⟨next.1, next.2, isNext⟩ (Nat.lt_succ_self mid)
      omega
    · rw [if_neg equal, if_neg fun both => isNext both.2, if_pos isNext]
      exact ⟨_, rfl, ⟨⟨next.1, next.2, isNext⟩, further, le_hi, within⟩, Or.inl (by omega)⟩
  have hole : ¬ line = mid + 1 := fun same => isNext (same ▸ isLine.known.2.2)
  rw [if_neg fun both => isNext both.1]
  by_cases equal : pos = f.linesTable mid
  · rw [if_pos equal]
    refine ⟨_, rfl, show mid = line from ?_⟩
    by_contra different
    have above' := wellFormed.increasing mid line known isLine.known (by omega)
    have start := isLine.start
    omega
  rw [if_neg equal]
  by_cases close : hi ≤ mid + 1
  · rw [if_pos ⟨close, not_not.mp isNext⟩]
    exact ⟨_, rfl, show mid = line by omega⟩
  · have notLow : mid ≠ low := fun same => close (near same)
    rw [if_neg fun both => close both.1, if_neg isNext]
    exact ⟨_, rfl, ⟨known, reached, le_hi, within⟩, Or.inl (by omega)⟩

theorem probeMid1_spec
    (known : Known f mid) (above : low < mid) (below : mid < hi) :
    ∃ r, probeMid1 f pos low hi mid = .ok r ∧ Progress f pos line low hi r := by
  have startMid := wellFormed.start_le_iff isLine known
  unfold probeMid1
  rw [known.start, bind_ok_eq]
  by_cases before : pos < f.linesTable mid
  · have under : line < mid := by
      by_contra notLess
      exact absurd (startMid.mpr (not_lt.mp notLess)) (not_le.mpr before)
    have within := bounds.within
    rw [if_pos before]
    exact ⟨_, rfl, ⟨bounds.known, bounds.least, under.le, by omega⟩, Or.inl (by omega)⟩
  rw [if_neg before]
  by_cases after : f.linesTable mid < pos
  · rw [if_pos after]
    exact ⟨_, rfl, ⟨known, startMid.mp after.le, bounds.most, bounds.within⟩, Or.inl (by omega)⟩
  · rw [if_neg after]
    exact probeKnown_spec wellFormed isLine bounds known above.le below.le fun same => absurd same above.ne'

theorem probeHole_spec
    (hole : f.linesTable mid = sourcePtrBad) (above : low ≤ mid) (below : mid ≤ hi) :
    ∃ r, probeHole f pos low hi mid = .ok r ∧ Progress f pos line low hi r := by
  have within : mid ≤ f.nbrLines := below.trans bounds.within
  have notLow : low ≠ mid := fun same => bounds.known.2.2 (same ▸ hole)
  obtain ⟨down, run, atLeast, atMost, isDown, holes⟩ := downward_spec bounds.known above within
  have notMid : down ≠ mid := fun same => isDown.2.2 (same ▸ hole)
  unfold probeHole
  rw [run, bind_ok_eq]
  by_cases isLow : down = low
  · obtain ⟨up, run', above', isUp, holes'⟩ :=
      @upward_spec f mid wellFormed (f.nbrLines + 1) (by omega) within (by omega)
    have startUp := wellFormed.start_le_iff isLine isUp
    have between : ∀ i, low < i → i < up → f.linesTable i = sourcePtrBad := by
      intro i from_ to_
      rcases Nat.lt_or_ge i mid with less | more
      · exact holes i (by omega) less.le
      · exact holes' i more to_
    have notBetween : ¬ (low < line ∧ line < up) := fun both => isLine.known.2.2 (between line both.1 both.2)
    have notMid' : up ≠ mid := fun same => isUp.2.2 (same ▸ hole)
    obtain ⟨isKnown, low_le, le_hi, most⟩ := bounds
    rw [if_neg (not_not.mpr isLow), run', bind_ok_eq]
    by_cases isHi : up = hi
    · subst isHi
      rw [if_pos rfl, isUp.start, bind_ok_eq]
      by_cases reached : f.linesTable up ≤ pos
      · rw [if_pos reached]
        exact ⟨_, rfl, show up = line by have := startUp.mp reached; omega⟩
      · have under : ¬ up ≤ line := fun le => reached (startUp.mpr le)
        rw [if_neg reached]
        exact ⟨_, rfl, show low = line by omega⟩
    rw [if_neg isHi]
    rcases Nat.lt_or_ge up hi with less | more
    · exact probeMid1_spec wellFormed isLine ⟨isKnown, low_le, le_hi, most⟩ isUp (by omega) less
    -- The upper bound is on a hole: it is raised to the next known line.
    have under : pos < f.linesTable up := by
      by_contra reached
      have := startUp.mp (not_lt.mp reached)
      omega
    unfold probeMid1
    rw [isUp.start, bind_ok_eq, if_pos under]
    refine ⟨_, rfl, ⟨isKnown, low_le, by omega, isUp.2.1⟩, Or.inr ⟨by omega, isUp, fun i from_ to_ => ?_, under⟩⟩
    exact between i (by omega) (by omega)
  · rw [if_pos isLow]
    exact probeMid1_spec wellFormed isLine bounds isDown (by omega) (by omega)

theorem probe_spec :
    ∃ r, probe f pos low hi = .ok r ∧ Progress f pos line low hi r := by
  have ordered : low ≤ hi := bounds.least.trans bounds.most
  have positive := bounds.known.1
  have most := bounds.within
  have within : 1 ≤ (hi + low) / 2 ∧ (hi + low) / 2 ≤ f.nbrLines := by omega
  unfold probe
  dsimp only
  rw [start_within within.1 within.2, bind_ok_eq]
  by_cases hole : f.linesTable ((hi + low) / 2) = sourcePtrBad
  · rw [if_pos hole]
    exact probeHole_spec wellFormed isLine bounds hole (by omega) (by omega)
  · rw [if_neg hole]
    exact probeKnown_spec wellFormed isLine bounds ⟨within.1, within.2, hole⟩ (by omega) (by omega) (by omega)

theorem probe_raised
    (raised : Raised f pos low hi) : probe f pos low hi = .ok (.found line) := by
  obtain ⟨apart, known, holes, after⟩ := raised
  have ordered : low < (hi + low) / 2 ∧ (hi + low) / 2 < hi := by omega
  have most := bounds.within
  have hole := holes ((hi + low) / 2) (by omega) (by omega)
  have isLow : low = line := by
    have under : ¬ hi ≤ line := fun le => absurd ((wellFormed.start_le_iff isLine known).mpr le) (not_le.mpr after)
    by_contra different
    have least := bounds.least
    exact isLine.known.2.2 (holes line (by omega) (by omega))
  obtain ⟨down, run, atLeast, atMost, isDown, -⟩ := downward_spec bounds.known ordered.1.le (by omega)
  obtain ⟨up, run', above', isUp, holes'⟩ :=
    @upward_spec f ((hi + low) / 2) wellFormed (f.nbrLines + 1) (by omega) (by omega) (by omega)
  have isDown' : down = low := by
    by_contra different
    exact isDown.2.2 (holes down (by omega) (by omega))
  have isUp' : up = hi := by
    rcases Nat.lt_trichotomy up hi with less | same | more
    · exact absurd (holes up (by omega) (by omega)) isUp.2.2
    · exact same
    · exact absurd (holes' hi (by omega) more) known.2.2
  unfold probe
  dsimp only
  rw [start_within (by omega) (by omega), bind_ok_eq, if_pos hole]
  unfold probeHole
  rw [run, bind_ok_eq, if_neg (not_not.mpr isDown'), run', bind_ok_eq, if_pos isUp', known.start, bind_ok_eq,
    if_neg (not_le.mpr after), isLow]

end

theorem locationLoop_spec {fuel : Nat}
    (bounds : Bounds f line low hi) (enough : hi - low + 2 ≤ fuel) : locationLoop f pos fuel low hi = .ok line := by
  induction fuel generalizing low hi with
  | zero => omega
  | succ fuel ih =>
    obtain ⟨r, run, progress⟩ := probe_spec wellFormed isLine bounds
    unfold locationLoop
    rw [run, bind_ok_eq]
    cases r with
    | found found => exact congrArg Except.ok progress
    | between low' hi' =>
      obtain ⟨bounds', closer | raised⟩ := progress
      · exact ih bounds' (by omega)
      · obtain ⟨fuel, rfl⟩ : ∃ rest, fuel = rest + 1 := ⟨fuel - 1, by omega⟩
        show locationLoop f pos (fuel + 1) low' hi' = _
        unfold locationLoop
        rw [probe_raised wellFormed isLine bounds' raised]
        rfl

end

end

/-- The cache has the line of its position. -/
def SourceFileRecord.Cached (f : SourceFileRecord) : Prop := IsLine f f.cachePos f.cacheLine

theorem locationToLine_spec (wellFormed : f.WellFormed) (cached : f.Cached) (isLine : IsLine f pos line) :
    locationToLine f pos = .ok line := by
  have startCache := wellFormed.start_le_iff isLine cached.known
  unfold locationToLine
  by_cases after : f.cachePos ≤ pos
  · rw [if_pos after]
    refine locationLoop_spec wellFormed isLine ⟨cached.known, startCache.mp (cached.start.trans after),
      isLine.known.2.1, Nat.le_refl _⟩ ?_
    omega
  · rw [if_neg after]
    have before : line ≤ f.cacheLine := cached.greatest line isLine.known (isLine.start.trans (not_le.mp after).le)
    have within := cached.known.2.1
    exact locationLoop_spec wellFormed isLine ⟨wellFormed.first_known, isLine.known.1, before, within⟩ (by omega)

theorem quickLook_spec (wellFormed : f.WellFormed) (isLine : IsLine f pos line) {count : Nat}
    (known : Known f (low + i)) (least : low + i ≤ line) (within : low + i + count ≤ f.nbrLines) :
    quickLook f pos low count (i + 1) = .ok (some line) ∨ quickLook f pos low count (i + 1) = .ok none := by
  induction count generalizing i with
  | zero => exact Or.inr rfl
  | succ count ih =>
    unfold quickLook
    rw [start_within (by omega) (by omega), bind_ok_eq]
    by_cases isKnown : f.linesTable (low + (i + 1)) ≠ sourcePtrBad
    · have next : Known f (low + (i + 1)) := ⟨by omega, by omega, isKnown⟩
      have startNext := wellFormed.start_le_iff isLine next
      by_cases after : f.linesTable (low + (i + 1)) > pos
      · rw [if_pos ⟨after, isKnown⟩]
        have notNext : ¬ low + (i + 1) ≤ line := fun le => absurd (startNext.mpr le) (not_le.mpr after)
        exact Or.inl (congrArg (fun l => Except.ok (some l)) (by omega))
      · rw [if_neg fun both => after both.1, if_neg isKnown]
        exact ih next (startNext.mp (not_lt.mp after)) (by omega)
    · rw [if_neg fun both => isKnown both.2, if_pos (not_not.mp isKnown)]
      exact Or.inr rfl

theorem lineOf_spec (wellFormed : f.WellFormed) (cached : f.Cached) (isLine : IsLine f pos line) :
    lineOf f pos = .ok line := by
  have search := locationToLine_spec wellFormed cached isLine
  unfold lineOf
  by_cases quick : f.cachePos ≤ pos ∧ pos - f.cachePos ≤ 120 ∧ f.cacheLine + lineThreshold ≤ f.nbrLines
  · have startCache := wellFormed.start_le_iff isLine cached.known
    rw [if_pos quick]
    rcases @quickLook_spec f pos line f.cacheLine 0 wellFormed isLine lineThreshold cached.known
        (startCache.mp (cached.start.trans quick.1)) quick.2.2 with found | nothing
    · rw [found]
      rfl
    · rw [nothing]
      exact search
  · rw [if_neg quick]
    exact search

/-- The last known line that doesn't begin after the position. -/
def greatestLine (f : SourceFileRecord) (pos : Nat) : Nat :=
  Nat.findGreatest (fun i => Known f i ∧ f.linesTable i ≤ pos) f.nbrLines

/-- The coordinates of a position in a line table. -/
def coordOf (f : SourceFileRecord) (pos : Nat) : Coord :=
  ⟨f.linesTable (greatestLine f pos), greatestLine f pos, pos - f.linesTable (greatestLine f pos)⟩

theorem greatestLine_isLine (wellFormed : f.WellFormed) (pos : Nat) : IsLine f pos (greatestLine f pos) := by
  have first : Known f 1 ∧ f.linesTable 1 ≤ pos :=
    ⟨wellFormed.first_known, by rw [wellFormed.first]; exact Nat.zero_le pos⟩
  have found := Nat.findGreatest_spec (P := fun i => Known f i ∧ f.linesTable i ≤ pos) wellFormed.lines first
  exact ⟨found.1, found.2, fun i known start => Nat.le_findGreatest known.2.1 ⟨known, start⟩⟩

theorem locationToCoord_spec (wellFormed : f.WellFormed) (cached : f.Cached) (natural : pos ≤ naturalLast) :
    locationToCoord f pos = .ok (coordOf f pos, { f with cachePos := pos, cacheLine := greatestLine f pos }) := by
  have isLine := greatestLine_isLine wellFormed pos
  unfold locationToCoord
  rw [lineOf_spec wellFormed cached isLine, bind_ok_eq, isLine.known.start, bind_ok_eq,
    if_pos ((Nat.sub_le _ _).trans natural)]
  rfl

/-- The cache when the file is loaded. -/
def SourceFileRecord.initial (f : SourceFileRecord) : SourceFileRecord :=
  { f with cachePos := sourcePtrOrg, cacheLine := 1 }

theorem locationToCoords_cached (wellFormed : f.WellFormed) (cached : f.Cached) {queries : List Nat}
    (natural : ∀ pos ∈ queries, pos ≤ naturalLast) :
    ∃ f', locationToCoords f queries = .ok (queries.map (coordOf f), f') ∧ f'.nbrLines = f.nbrLines ∧
      f'.linesTable = f.linesTable ∧ ∀ pos, locationToLine f' pos = .ok (greatestLine f pos) := by
  induction queries generalizing f with
  | nil =>
    exact ⟨f, rfl, rfl, rfl, fun pos => locationToLine_spec wellFormed cached (greatestLine_isLine wellFormed pos)⟩
  | cons pos queries ih =>
    have wellFormed' : SourceFileRecord.WellFormed { f with cachePos := pos, cacheLine := greatestLine f pos } :=
      ⟨wellFormed.lines, wellFormed.first, wellFormed.last, wellFormed.increasing⟩
    have isLine := greatestLine_isLine wellFormed pos
    have cached' : SourceFileRecord.Cached { f with cachePos := pos, cacheLine := greatestLine f pos } :=
      ⟨isLine.known, isLine.start, isLine.greatest⟩
    obtain ⟨f', run, nbr, table, search⟩ := ih wellFormed' cached' fun p inside => natural p (List.mem_cons_of_mem pos inside)
    refine ⟨f', ?_, nbr, table, search⟩
    unfold locationToCoords
    rw [locationToCoord_spec wellFormed cached (natural pos List.mem_cons_self), bind_ok_eq]
    show (locationToCoords { f with cachePos := pos, cacheLine := greatestLine f pos } queries >>= _) = _
    rw [run]
    rfl

/-- From the initial cache every sequence of queries returns the coordinates of its positions, and the search from the
cache that it leaves returns the line of any position. Only entries of lines are read. -/
theorem locationToCoords_spec (wellFormed : f.WellFormed) {queries : List Nat}
    (natural : ∀ pos ∈ queries, pos ≤ naturalLast) : (∀ pos, IsLine f pos (greatestLine f pos)) ∧
      ∃ f', locationToCoords f.initial queries = .ok (queries.map (coordOf f), f') ∧ f'.nbrLines = f.nbrLines ∧
        f'.linesTable = f.linesTable ∧ ∀ pos, locationToLine f' pos = .ok (greatestLine f pos) := by
  have cached : f.initial.Cached := by
    refine ⟨wellFormed.first_known, wellFormed.first.le, fun i known start => ?_⟩
    by_contra later
    have increasing := wellFormed.increasing 1 i wellFormed.first_known known (not_le.mp later)
    exact absurd (Nat.le_zero.mp start) (Nat.ne_of_gt (Nat.lt_of_le_of_lt (Nat.zero_le _) increasing))
  exact ⟨greatestLine_isLine wellFormed, locationToCoords_cached (f := f.initial)
    ⟨wellFormed.lines, wellFormed.first, wellFormed.last, wellFormed.increasing⟩ cached natural⟩

/-- Six lines, of which three are known. -/
def holed : SourceFileRecord where
  nbrLines := 6
  linesTable i := if i = 1 then 0 else if i = 4 then 30 else if i = 6 then 50 else sourcePtrBad
  cacheLine := 1
  cachePos := 0

theorem holed_wellFormed : holed.WellFormed := by
  refine ⟨by decide, rfl, by decide, fun i j known known' less => ?_⟩
  have all : ∀ i < 7, ∀ j < 7, Known holed i → Known holed j → i < j → holed.linesTable i < holed.linesTable j := by decide
  exact all i (Nat.lt_succ_of_le known.2.1) j (Nat.lt_succ_of_le known'.2.1) known known' less

theorem locationToCoords_spec_holed : ∃ f', locationToCoords holed.initial [45, 10, 60] =
    .ok ([⟨30, 4, 15⟩, ⟨0, 1, 10⟩, ⟨50, 6, 10⟩], f') := by
  obtain ⟨-, f', run, -⟩ := @locationToCoords_spec holed holed_wellFormed [45, 10, 60] (by decide)
  have coords : [45, 10, 60].map (coordOf holed) = [⟨30, 4, 15⟩, ⟨0, 1, 10⟩, ⟨50, 6, 10⟩] := by decide +kernel
  exact ⟨f', coords ▸ run⟩

end Ghdl.FilesMap
