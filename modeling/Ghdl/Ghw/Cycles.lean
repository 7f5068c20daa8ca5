import Ghdl.Ghw.Waves

/-!
# Value changes are read back

The reader of a cycle stays on the signal that the writer is at: it has found the signals before it, and the
distance to the next one is over signals that all have a type. So each frame is read into the table of signals. The
times are read back but for three: that of the snapshot and that of the first cycle are put together from two
halves, and the distance -1, from the first to the last time there is, is the mark of the end.
-/

namespace Ghdl.Ghw

open Bytes

/-- What a simulation dumps: every frame has the same signals. -/
structure Dump where
  kinds : List Rtik
  natural : kinds.length < 2 ^ 31
  start : Frame
  startKinds : start.signals.map Signal.kind = kinds
  cycles : List Frame
  cycleKinds : ∀ frame ∈ cycles, frame.signals.map Signal.kind = kinds

/-- The bytes of `Write_Snapshot`, `Wave_Cycle` and `Wave_Close_Cyc`. -/
def Dump.write (dump : Dump) (be : Bool) : List UInt8 :=
  writeSnapshot be dump.start ++ waveCycles be ⟨0, false⟩ dump.cycles

/-- The table of `ghwlib`: number 0 is no signal, and the numbers after the dumped signals are free. -/
def table (sigs : List GhwSig) (extra : Nat) : List GhwSig :=
  ⟨none, none⟩ :: (sigs ++ List.replicate extra ⟨none, none⟩)

/-- The handler when the hierarchy has been read. -/
def Handler.opened (be : Bool) (kinds : List Rtik) (extra : Nat) : Handler :=
  ⟨be, table (kinds.map fun kind => ⟨some kind, none⟩) extra, 0⟩

/-- The values of all the numbers. -/
def shown (vals : List (Option GhwVal)) (extra : Nat) : List (Option GhwVal) :=
  none :: (vals ++ List.replicate extra none)

/-- The numbers of the signals that changed, from number I on. -/
def changedFrom (i : Nat) : List Signal → List Nat
  | [] => []
  | sig :: rest => if sig.roEvent then i :: changedFrom (i + 1) rest else changedFrom (i + 1) rest

/-- The values after a cycle. -/
def updated (vals : List (Option GhwVal)) (signals : List Signal) : List (Option GhwVal) :=
  List.zipWith (fun val sig => if sig.roEvent then sig.value.ghw else val) vals signals

def cycleEvents (extra : Nat) (vals : List (Option GhwVal)) : List Frame → List Event
  | [] => []
  | frame :: rest =>
    .cycle frame.currentTime (changedFrom 1 frame.signals) (shown (updated vals frame.signals) extra) ::
      cycleEvents extra (updated vals frame.signals) rest

def Dump.vals (dump : Dump) : List (Option GhwVal) := dump.start.signals.map fun sig => sig.value.ghw

/-- What was dumped: the times, the signals that changed, and the values. -/
def Dump.events (dump : Dump) (extra : Nat) : List Event :=
  .snapshot dump.start.currentTime (shown dump.vals extra) :: cycleEvents extra dump.vals dump.cycles

/-- The signals have the types of the table. -/
def Typed (sigs : List GhwSig) (signals : List Signal) : Prop :=
  sigs.map GhwSig.type = signals.map fun sig => some sig.kind

/-- The signals of the table after a cycle. -/
def refresh (sigs : List GhwSig) (signals : List Signal) : List GhwSig :=
  List.zipWith (fun s sig => if sig.roEvent then ⟨some sig.kind, sig.value.ghw⟩ else s) sigs signals

variable {sigs before front rest : List GhwSig} {signals : List Signal} {extra i last : Nat} {be : Bool}

theorem Typed.refresh (typed : Typed sigs signals) : Typed (refresh sigs signals) signals := by
  induction sigs generalizing signals with
  | nil =>
    cases signals with
    | nil => rfl
    | cons sig signals => cases typed
  | cons s sigs ih =>
    cases signals with
    | nil => cases typed
    | cons sig signals =>
      obtain ⟨same, more⟩ := List.cons.inj typed
      refine List.cons_eq_cons.mpr ⟨?_, ih more⟩
      dsimp only
      split
      · rfl
      · exact same

theorem refresh_vals (sigs : List GhwSig) (signals : List Signal) :
    (refresh sigs signals).map GhwSig.val = updated (sigs.map GhwSig.val) signals := by
  unfold refresh updated
  rw [List.map_zipWith, List.zipWith_map_left]
  congr 1
  funext s sig
  cases sig.roEvent <;> rfl

theorem table_vals (sigs : List GhwSig) (extra : Nat) :
    (table sigs extra).map GhwSig.val = shown (sigs.map GhwSig.val) extra := by
  simp [table, shown]

theorem reads_signalValue {sig : Signal} (readable : sig.kind.Readable) (val : Option GhwVal) :
    Reads (readSignalValue ⟨some sig.kind, val⟩) (writeValue sig.value) ⟨some sig.kind, sig.value.ghw⟩ := by
  obtain ⟨read, isRead, reads⟩ := reads_value sig.agrees readable
  rw [isRead]
  exact reads.map _

theorem nextSignal_typed (typed : ∀ s ∈ front, s.type.isSome = true) :
    nextSignal (front ++ rest) i front.length = some (i + front.length) := by
  induction front generalizing i with
  | nil =>
    cases rest <;> rfl
  | cons s front ih =>
    rw [List.cons_append, List.length_cons, nextSignal, if_pos (typed s List.mem_cons_self),
      ih fun s inside => typed s (List.mem_cons_of_mem _ inside)]
    congr 1
    omega

theorem takes_signalValue (s : GhwSig) : Takes 0 (readSignalValue s) := by
  unfold readSignalValue
  cases s.type with
  | none => exact Takes.pure s
  | some kind => exact (takes_value kind).map _

theorem takes_signalAt (sigs : List GhwSig) (i : Nat) : Takes 0 (readSignalAt sigs i) := by
  unfold readSignalAt
  cases sigs[i]? with
  | none => exact Takes.fail _
  | some s => exact (takes_signalValue s).map _

theorem takes_contStep (state : List GhwSig × Nat × List Nat) : Takes 1 (readCycleContStep state) := by
  show Takes (1 + 0) (readUleb128 >>= _)
  refine (takes_groups ReadError.eof 7 32).bind fun d => ?_
  split
  · exact Takes.pure _
  · split
    · exact Takes.fail _
    · exact (takes_signalAt state.1 _).map _

theorem readCycleCont_advances : Advances readCycleContStep := Advances.of_takes takes_contStep

theorem reads_signalAt {sig : Signal} (readable : sig.kind.Readable) (val : Option GhwVal) :
    Reads (readSignalAt (table (before ++ ⟨some sig.kind, val⟩ :: rest) extra) (before.length + 1))
      (writeValue sig.value) (table (before ++ ⟨some sig.kind, sig.value.ghw⟩ :: rest) extra) := by
  have found : (table (before ++ ⟨some sig.kind, val⟩ :: rest) extra)[before.length + 1]? =
      some ⟨some sig.kind, val⟩ := by simp [table]
  unfold readSignalAt
  rw [found]
  have set : (table (before ++ ⟨some sig.kind, val⟩ :: rest) extra).set (before.length + 1)
      ⟨some sig.kind, sig.value.ghw⟩ = table (before ++ ⟨some sig.kind, sig.value.ghw⟩ :: rest) extra := by
    simp [table]
  rw [← set]
  exact (reads_signalValue readable val).map _

theorem reads_contStep {sig : Signal} (readable : sig.kind.Readable) (val : Option GhwVal)
    (found : ∀ s ∈ before, s.type.isSome = true) (behind : last ≤ before.length)
    (natural : before.length + 1 < 2 ^ 31) (list : List Nat) :
    Reads (readCycleContStep (table (before ++ ⟨some sig.kind, val⟩ :: rest) extra, last, list))
      (wavePutUleb128 (before.length + 1 - last) ++ writeValue sig.value)
      (.inl (table (before ++ ⟨some sig.kind, sig.value.ghw⟩ :: rest) extra, before.length + 1,
        list ++ [before.length + 1])) := by
  have small : before.length + 1 - last < 2 ^ 32 := by omega
  apply Reads.bind (reads_uleb128 small)
  have number : (BitVec.ofNat 32 (before.length + 1 - last)).toNat = before.length + 1 - last :=
    Nat.mod_eq_of_lt small
  have nonzero : BitVec.ofNat 32 (before.length + 1 - last) ≠ 0 := by
    intro zero
    have none := congrArg BitVec.toNat zero
    rw [number] at none
    have some : before.length + 1 - last ≠ 0 := by omega
    exact some none
  have next : nextSignal ((table (before ++ ⟨some sig.kind, val⟩ :: rest) extra).drop (last + 1)) last
      (before.length + 1 - last) = some (before.length + 1) := by
    have ahead : (table (before ++ ⟨some sig.kind, val⟩ :: rest) extra).drop (last + 1) =
        (before.drop last ++ [⟨some sig.kind, val⟩]) ++ (rest ++ List.replicate extra ⟨none, none⟩) := by
      simp [table, List.drop_append_of_le_length behind]
    have count : before.length + 1 - last = (before.drop last ++ [(⟨some sig.kind, val⟩ : GhwSig)]).length := by
      rw [List.length_append, List.length_drop, List.length_singleton]
      omega
    have typed : ∀ s ∈ before.drop last ++ [(⟨some sig.kind, val⟩ : GhwSig)], s.type.isSome = true := by
      intro s inside
      rcases List.mem_append.mp inside with inside | inside
      · exact found s (List.mem_of_mem_drop inside)
      · rw [List.mem_singleton.mp inside]
        rfl
    rw [ahead, count, nextSignal_typed typed, ← count]
    congr 1
    omega
  rw [if_neg nonzero, number, next]
  exact (reads_signalAt readable val).map _

theorem reads_contLoop (typed : Typed sigs signals) (readable : ∀ sig ∈ signals, sig.kind.Readable)
    (found : ∀ s ∈ before, s.type.isSome = true) (behind : last ≤ before.length)
    (natural : before.length + signals.length < 2 ^ 31) (list : List Nat) :
    Reads (Reader.iterate ReadError.exhausted readCycleContStep (table (before ++ sigs) extra, last, list))
      (dumpSignals (before.length + 1) last signals)
      (table (before ++ refresh sigs signals) extra, list ++ changedFrom (before.length + 1) signals) := by
  induction signals generalizing sigs before last list with
  | nil =>
    cases sigs with
    | cons s sigs => cases typed
    | nil =>
      apply Reads.iterate_done readCycleCont_advances
      have zero : Reads readUleb128 [0] 0 := reads_uleb128 (by decide : 0 < 2 ^ 32)
      intro rest
      show (readUleb128 >>= _) ([0] ++ rest) = _
      rw [Reader.bind_of_ok (zero rest), if_pos rfl]
      simp [refresh, changedFrom]
  | cons sig signals ih =>
    cases sigs with
    | nil => cases typed
    | cons s sigs =>
      obtain ⟨type, val⟩ := s
      obtain ⟨same, more⟩ := List.cons.inj typed
      obtain rfl : type = some sig.kind := same
      have grown : ∀ val, ∀ t ∈ before ++ [(⟨some sig.kind, val⟩ : GhwSig)], t.type.isSome = true := by
        intro val t inside
        rcases List.mem_append.mp inside with inside | inside
        · exact found t inside
        · rw [List.mem_singleton.mp inside]
          rfl
      have size : ∀ val, (before ++ [(⟨some sig.kind, val⟩ : GhwSig)]).length = before.length + 1 := by simp
      have later := fun sig inside => readable sig (List.mem_cons_of_mem _ inside)
      rw [List.length_cons] at natural
      cases event : sig.roEvent with
      | false =>
        have behind' : last ≤ (before ++ [(⟨some sig.kind, val⟩ : GhwSig)]).length := by
          rw [size]
          omega
        have tail := ih more later (grown val) behind' (by rw [size]; omega) list
        rw [size, List.append_assoc, List.append_assoc] at tail
        simpa [dumpSignals, changedFrom, refresh, event] using tail
      | true =>
        have behind' : before.length + 1 ≤ (before ++ [(⟨some sig.kind, sig.value.ghw⟩ : GhwSig)]).length := by
          rw [size]
        have tail := ih more later (grown sig.value.ghw) behind' (by rw [size]; omega) (list ++ [before.length + 1])
        rw [size, List.append_assoc, List.append_assoc] at tail
        have head : Reads (readCycleContStep (table (before ++ ⟨some sig.kind, val⟩ :: sigs) extra, last, list)) _ _ :=
          reads_contStep (readable sig List.mem_cons_self) val found behind (by omega) list
        have both := Reads.iterate_next readCycleCont_advances head tail
        simpa [dumpSignals, changedFrom, refresh, event] using both

end Ghdl.Ghw
