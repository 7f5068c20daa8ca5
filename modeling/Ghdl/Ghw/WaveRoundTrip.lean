import Mathlib
import Ghdl.Ghw.Cycles

/-!
# Runs of cycles are read back

A dump is read from its start: each cycle is one iteration of the reader, which goes on with the next one at the
time of the writer. Where it does not, the reader has seen the mark of the end; what it reads after that can not be
the cycle that was written, because that one is at a time which no section starts at.
-/

namespace Ghdl.Ghw

open Bytes

/-- The conditions for a dump to be read back: the kinds of its signals, the two times that are written in full,
and the distances between its cycles. -/
structure Dump.Exact (dump : Dump) : Prop where
  kinds : ∀ kind ∈ dump.kinds, kind.Readable
  start : Whole dump.start.currentTime
  first : ∀ frame ∈ dump.cycles.head?, Whole frame.currentTime
  steps : (dump.cycles.map Frame.currentTime).IsChain fun before after =>
    ¬ (before = BitVec.intMin 64 ∧ after = BitVec.intMax 64)

/-- The times of the cycles do not decrease. -/
def Dump.Ordered (dump : Dump) : Prop :=
  (dump.cycles.map Frame.currentTime).IsChain fun before after => before.toInt ≤ after.toInt

/-- The only distance of -1 is the one from the first to the last time. -/
theorem sub_eq_neg_one {a b : BitVec 64} (ordered : a.toInt ≤ b.toInt) :
    b - a = -1 ↔ a = BitVec.intMin 64 ∧ b = BitVec.intMax 64 := by
  have sub : b - a = -1 ↔ (2 ^ 64 - a.toNat + b.toNat) % 2 ^ 64 = 2 ^ 64 - 1 := by
    rw [← BitVec.toNat_inj, BitVec.toNat_sub]
    rfl
  have lowest : a = BitVec.intMin 64 ↔ a.toNat = 2 ^ 63 := by
    rw [← BitVec.toNat_inj]
    rfl
  have highest : b = BitVec.intMax 64 ↔ b.toNat = 2 ^ 63 - 1 := by
    rw [← BitVec.toNat_inj]
    rfl
  rw [sub, lowest, highest]
  have aBound := a.isLt
  have bBound := b.isLt
  rw [BitVec.toInt_eq_toNat_cond, BitVec.toInt_eq_toNat_cond] at ordered
  split at ordered <;> split at ordered <;> omega

variable {be : Bool} {extra : Nat} {sigs : List GhwSig} {time : BitVec 64} {frame : Frame} {frames : List Frame}
  {events : List Event} {kinds : List Rtik}

/-- The handler with these signals in its table. -/
def Handler.holding (be : Bool) (sigs : List GhwSig) (extra : Nat) (time : BitVec 64) : Handler :=
  ⟨be, table sigs extra, time⟩

theorem reads_cycleCont (typed : Typed sigs frame.signals) (readable : ∀ sig ∈ frame.signals, sig.kind.Readable)
    (natural : frame.signals.length < 2 ^ 31) :
    Reads (readCycleCont (.holding be sigs extra time)) (dumpSignals 1 0 frame.signals)
      (.holding be (refresh sigs frame.signals) extra time, changedFrom 1 frame.signals) := by
  have loop : Reads (Reader.iterate ReadError.exhausted readCycleContStep (table ([] ++ sigs) extra, 0, [])) _ _ :=
    reads_contLoop typed readable (fun s inside => absurd inside List.not_mem_nil) (Nat.le_refl 0)
      (by simpa using natural) []
  exact loop.map _

theorem table_map (f : Signal → GhwSig) (signals : List Signal) (extra : Nat) : table (signals.map f) extra =
      (none :: (signals.map some ++ List.replicate extra none)).map fun slot => slot.elim ⟨none, none⟩ f := by
  simp [table, Function.comp_def]

theorem reads_values (readable : ∀ sig ∈ frame.signals, sig.kind.Readable) (vals : Signal → Option GhwVal) :
    Reads ((table (frame.signals.map fun sig => ⟨some sig.kind, vals sig⟩) extra).mapM readSignalValue)
      (frame.signals.flatMap fun sig => writeValue sig.value)
      (table (frame.signals.map fun sig => ⟨some sig.kind, sig.value.ghw⟩) extra) := by
  have bytes : frame.signals.flatMap (fun sig => writeValue sig.value) =
      (none :: (frame.signals.map some ++ List.replicate extra none)).flatMap
        fun slot => slot.elim [] fun sig : Signal => writeValue sig.value := by
    simp [List.flatMap_map, List.flatMap_replicate]
  rw [table_map, table_map, bytes]
  apply Reads.mapM
  intro slot inside
  cases slot with
  | none => exact Reads.pure _
  | some sig =>
    have member : sig ∈ frame.signals := by simpa using inside
    exact reads_signalValue (readable sig member) _

variable (be extra) in
theorem reads_snapshot (readable : ∀ sig ∈ frame.signals, sig.kind.Readable)
    (vals : Signal → Option GhwVal) (time : BitVec 64) :
    Reads (readSnapshot (.holding be (frame.signals.map fun sig => ⟨some sig.kind, vals sig⟩) extra time))
      ([0, 0, 0, 0] ++ ((wavePutI64 be frame.currentTime).toList ++
        (frame.signals.flatMap (fun sig => writeValue sig.value) ++ (tag 'E' 'S' 'N').toList)))
      (.holding be (frame.signals.map fun sig => ⟨some sig.kind, sig.value.ghw⟩) extra (seen frame.currentTime)) := by
  apply (reads_expect #v[0, 0, 0, 0]).bind
  apply (Reads.take ReadError.eof (wavePutI64 be frame.currentTime)).bind
  apply (reads_values readable vals).bind
  rw [← getI64_wavePutI64 be]
  exact (reads_expect (tag 'E' 'S' 'N')).map _

variable (be extra) in
/-- A snapshot with a signal of a kind that `ghw_read_value` does not have stops the program. -/
theorem readSnapshot_abort (time : BitVec 64) (unreadable : ∃ sig ∈ frame.signals, ¬ sig.kind.Readable)
    (rest : List UInt8) : readSnapshot (.holding be (frame.signals.map fun sig => ⟨some sig.kind, none⟩) extra time)
      ([0, 0, 0, 0] ++ ((wavePutI64 be frame.currentTime).toList ++
        (frame.signals.flatMap (fun sig => writeValue sig.value) ++ rest))) = .error .abort := by
  have zeros : Reads (expect #v[0, 0, 0, 0]) [0, 0, 0, 0] () := reads_expect _
  unfold readSnapshot
  rw [Reader.bind_of_ok (zeros _), Reader.bind_of_ok (Reads.take ReadError.eof (wavePutI64 be frame.currentTime) _)]
  apply Reader.bind_of_error
  have bytes : frame.signals.flatMap (fun sig => writeValue sig.value) =
      (none :: (frame.signals.map some ++ List.replicate extra none)).flatMap
        fun slot => slot.elim [] fun sig : Signal => writeValue sig.value := by
    simp [List.flatMap_map, List.flatMap_replicate]
  show List.mapM readSignalValue (table _ extra) _ = _
  rw [table_map, bytes]
  have fails : ∀ sig : Signal, ¬ sig.kind.Readable → ∀ rest,
      readSignalValue ⟨some sig.kind, none⟩ rest = .error .abort := by
    intro sig unreadable rest
    exact Reader.bind_of_error (readValue_abort unreadable rest) _
  apply Reads.mapM_error (b := fun slot : Option Signal =>
    slot.elim ⟨none, none⟩ fun sig => ⟨some sig.kind, sig.value.ghw⟩)
  · intro slot inside
    cases slot with
    | none => exact Or.inr (Reads.pure _)
    | some sig =>
      by_cases readable : sig.kind.Readable
      · exact Or.inr (reads_signalValue readable none)
      · exact Or.inl (fails sig readable)
  · obtain ⟨sig, inside, unreadable⟩ := unreadable
    exact ⟨some sig, by simp [inside], fails sig unreadable⟩

theorem takes_snapshot (h : Handler) : Takes 0 (readSnapshot h) := by
  show Takes (0 + (0 + (0 + 0))) (expect #v[0, 0, 0, 0] >>= _)
  refine ((takes_expect _).mono (Nat.zero_le 4)).bind fun _ => ?_
  refine ((Takes.take ReadError.eof 8).mono (Nat.zero_le 8)).bind fun b => ?_
  refine (Takes.mapM takes_signalValue h.sigs).bind fun sigs => ?_
  exact ((takes_expect _).mono (Nat.zero_le 4)).map _

theorem takes_cycleCont (h : Handler) : Takes 0 (readCycleCont h) :=
  (Takes.iterate (fun state => (takes_contStep state).mono (Nat.zero_le 1)) _).map _

theorem takes_cycleNext (h : Handler) : Takes 1 (readCycleNext h) := by
  show Takes (1 + 0) (readLsleb128 >>= _)
  refine (takes_sleb ReadError.eof 64).bind fun d => ?_
  split <;> exact Takes.pure _

theorem takes_cycleStep (state : Handler × List Event) : Takes 1 (readCycleStep state) := by
  show Takes (0 + 1) (readCycleCont state.1 >>= _)
  exact (takes_cycleCont state.1).bind fun r => (takes_cycleNext r.1).map _

theorem takes_cycle (h : Handler) (events : List Event) : Takes 0 (readCycle h events) := by
  show Takes (0 + (0 + 0)) (readCycleStart h >>= _)
  refine (((Takes.take ReadError.eof 8).map _).mono (Nat.zero_le 8)).bind fun h => ?_
  refine (Takes.iterate (fun state => (takes_cycleStep state).mono (Nat.zero_le 1)) (h, events)).bind fun r => ?_
  exact ((takes_expect _).mono (Nat.zero_le 4)).map _

theorem takes_section (state : Handler × List Event) : Takes 4 (readSection state) := by
  show Takes (4 + 0) (Reader.take ReadError.eof 4 >>= _)
  refine (Takes.take ReadError.eof 4).bind fun hdr => ?_
  split
  · exact (takes_snapshot state.1).map _
  · split
    · exact takes_cycle state.1 state.2
    · exact Takes.fail _

theorem readCycle_advances : Advances readCycleStep := Advances.of_takes takes_cycleStep

theorem readDump_advances : Advances readDumpStep := by
  intro state bytes next rest run
  obtain ⟨eof, between, first, tail⟩ := Reader.bind_ok.mp run
  obtain ⟨rfl, rfl⟩ := Prod.mk.inj (Except.ok.inj first)
  split at tail
  · cases tail
  · obtain ⟨state', after, read, last⟩ := Reader.bind_ok.mp tail
    obtain ⟨_, rfl⟩ := Prod.mk.inj (Except.ok.inj last)
    have taken := takes_section state bytes state' after read
    omega

/-- More events, the first of which is as the condition says. -/
def Follows (P : Event → Prop) (events later : List Event) : Prop :=
  ∃ more, later = events ++ more ∧ ∀ event, more.head? = some event → P event

/-- The condition allows the events that a section starts with. -/
structure Opens (P : Event → Prop) : Prop where
  snapshot : ∀ time vals, P (.snapshot time vals)
  cycle : ∀ h l changed vals, P (.cycle (halves h l) changed vals)

variable {P : Event → Prop}

theorem Follows.refl (P : Event → Prop) (events : List Event) : Follows P events events := by
  refine ⟨[], (List.append_nil events).symm, fun event none => ?_⟩
  cases none

theorem Follows.snoc {events later : List Event} {event : Event} (follows : Follows P events later)
    (first : later = events → P event) : Follows P events (later ++ [event]) := by
  obtain ⟨more, rfl, head⟩ := follows
  refine ⟨more ++ [event], List.append_assoc .., fun e isFirst => ?_⟩
  cases more with
  | nil => exact Option.some.inj isFirst ▸ first (List.append_nil events)
  | cons e more => exact head _ isFirst

variable {state : Handler × List Event} {bytes rest : List UInt8}

theorem cycleStep_shows
    {next : (Handler × List Event) ⊕ (Handler × List Event)} (run : readCycleStep state bytes = .ok (next, rest)) :
    ∃ h changed vals, next.elim id id = (h, state.2 ++ [.cycle state.1.snapTime changed vals]) := by
  obtain ⟨r, between, cont, tail⟩ := Reader.bind_ok.mp run
  obtain ⟨more, after, read, last⟩ := Reader.bind_ok.mp tail
  obtain ⟨sigs, _, _, final⟩ := Reader.bind_ok.mp cont
  obtain ⟨rfl, _⟩ := Prod.mk.inj (Except.ok.inj final)
  obtain ⟨rfl, _⟩ := Prod.mk.inj (Except.ok.inj last)
  refine ⟨more.2, sigs.2, sigs.1.map GhwSig.val, ?_⟩
  cases more.1 <;> rfl

theorem cycleLoop_follows {events : List Event} {result : Handler × List Event}
    (run : Reader.iterate ReadError.exhausted readCycleStep state bytes = .ok (result, rest))
    (follows : Follows P events state.2)
    (first : state.2 = events → ∀ changed vals, P (.cycle state.1.snapTime changed vals)) :
    Follows P events result.2 := by
  apply Reader.iterate_invariant (fun s : Handler × List Event => Follows P events s.2 ∧
    (s.2 = events → ∀ changed vals, P (.cycle s.1.snapTime changed vals))) run ⟨follows, first⟩
  · intro s bytes s' rest holds one
    obtain ⟨h, changed, vals, same⟩ := cycleStep_shows one
    obtain rfl : s' = _ := same
    refine ⟨holds.1.snoc fun same => holds.2 same changed vals, fun same => ?_⟩
    obtain ⟨more, grown, _⟩ := holds.1
    have lengths := congrArg List.length same
    rw [List.length_append, List.length_singleton, grown, List.length_append] at lengths
    omega
  · intro s bytes result rest holds one
    obtain ⟨h, changed, vals, same⟩ := cycleStep_shows one
    obtain rfl : result = _ := same
    exact holds.1.snoc fun same => holds.2 same changed vals

theorem section_follows {events : List Event} {result : Handler × List Event}
    (opens : Opens P) (run : readSection state bytes = .ok (result, rest)) (follows : Follows P events state.2) :
    Follows P events result.2 := by
  obtain ⟨hdr, between, first, tail⟩ := Reader.bind_ok.mp run
  split at tail
  · obtain ⟨h, after, read, last⟩ := Reader.bind_ok.mp tail
    obtain ⟨rfl, _⟩ := Prod.mk.inj (Except.ok.inj last)
    exact follows.snoc fun _ => opens.snapshot _ _
  · split at tail
    · obtain ⟨h, after, start, loop⟩ := Reader.bind_ok.mp tail
      obtain ⟨r, after', cycles, last⟩ := Reader.bind_ok.mp loop
      obtain ⟨_, _, _, final⟩ := Reader.bind_ok.mp last
      obtain ⟨rfl, _⟩ := Prod.mk.inj (Except.ok.inj final)
      obtain ⟨b, _, _, time⟩ := Reader.bind_ok.mp start
      obtain ⟨rfl, _⟩ := Prod.mk.inj (Except.ok.inj time)
      exact cycleLoop_follows cycles follows fun _ => opens.cycle _ _
    · cases tail

variable {result : List Event}

theorem dump_follows {events : List Event}
    (opens : Opens P) (run : Reader.iterate ReadError.exhausted readDumpStep state bytes = .ok (result, rest))
    (follows : Follows P events state.2) : Follows P events result := by
  apply Reader.iterate_invariant (fun s : Handler × List Event => Follows P events s.2) run follows
  · intro s bytes s' rest holds one
    obtain ⟨eof, between, _, tail⟩ := Reader.bind_ok.mp one
    split at tail
    · cases tail
    · obtain ⟨state', after, read, last⟩ := Reader.bind_ok.mp tail
      obtain ⟨same, _⟩ := Prod.mk.inj (Except.ok.inj last)
      obtain rfl := Sum.inl.inj same
      exact section_follows opens read holds
  · intro s bytes result rest holds one
    obtain ⟨eof, between, _, tail⟩ := Reader.bind_ok.mp one
    split at tail
    · obtain ⟨same, _⟩ := Prod.mk.inj (Except.ok.inj tail)
      obtain rfl := Sum.inr.inj same
      exact holds
    · obtain ⟨state', after, read, last⟩ := Reader.bind_ok.mp tail
      cases (Prod.mk.inj (Except.ok.inj last)).1

/-- The rest of `ghw_read_dump`, from a cycle on. -/
def resume (state : Handler × List Event) : GhwReader (List Event) := do
  let r ← Reader.iterate ReadError.exhausted readCycleStep state
  readCycleEnd
  Reader.iterate ReadError.exhausted readDumpStep r

/-- The rest of `ghw_read_dump`, from the mark of the end on. -/
def finish (state : Handler × List Event) : GhwReader (List Event) := do
  readCycleEnd
  Reader.iterate ReadError.exhausted readDumpStep state

theorem finish_follows
    (opens : Opens P) (run : finish state bytes = .ok (result, rest)) : Follows P state.2 result := by
  obtain ⟨_, between, _, tail⟩ := Reader.bind_ok.mp run
  exact dump_follows opens tail (Follows.refl P state.2)

theorem opens_true : Opens fun _ => True := ⟨fun _ _ => trivial, fun _ _ _ _ => trivial⟩

theorem opens_before_last : Opens fun event => ∀ time changed vals,
    event = .cycle time changed vals → time ≠ BitVec.intMax 64 := by
  constructor
  · intro _ _ _ _ _ event
    cases event
  · intro h l _ _ _ _ _ event
    cases event
    exact halves_ne_intMax h l

theorem resume_follows (run : resume state bytes = .ok (result, rest)) : ∃ more, result = state.2 ++ more := by
  obtain ⟨r, between, loop, last⟩ := Reader.bind_ok.mp run
  obtain ⟨_, after, _, tail⟩ := Reader.bind_ok.mp last
  have follows := cycleLoop_follows loop (Follows.refl (fun _ => True) state.2) fun _ _ _ => trivial
  obtain ⟨more, isMore, _⟩ := dump_follows opens_true tail follows
  exact ⟨more, isMore⟩

theorem readDump_done (state : Handler × List Event) :
    Reader.iterate ReadError.exhausted readDumpStep state [] = .ok (state.2, []) := by
  rw [Reader.iterate_eq readDump_advances]
  rfl

theorem finish_done (state : Handler × List Event) : finish state (tag 'E' 'C' 'Y').toList = .ok (state.2, []) := by
  have ends := reads_expect (tag 'E' 'C' 'Y') []
  rw [List.append_nil] at ends
  exact (Reader.bind_of_ok ends _).trans (readDump_done state)

/-- What is shown of a frame. -/
def shownCycle (extra : Nat) (sigs : List GhwSig) (time : BitVec 64) (frame : Frame) : Event :=
  .cycle time (changedFrom 1 frame.signals) (shown (updated (sigs.map GhwSig.val) frame.signals) extra)

variable (be extra time events) in
theorem resume_cycle (typed : Typed sigs frame.signals) (readable : ∀ sig ∈ frame.signals, sig.kind.Readable)
    (natural : frame.signals.length < 2 ^ 31) (d : BitVec 64) (rest : List UInt8) :
    resume (.holding be sigs extra time, events) (dumpSignals 1 0 frame.signals ++ (wavePutLsleb128 d ++ rest)) =
      if d = -1 then finish (.holding be (refresh sigs frame.signals) extra time,
          events ++ [shownCycle extra sigs time frame]) rest else
        resume (.holding be (refresh sigs frame.signals) extra (time + d),
          events ++ [shownCycle extra sigs time frame]) rest := by
  have step : readCycleStep (.holding be sigs extra time, events)
      (dumpSignals 1 0 frame.signals ++ (wavePutLsleb128 d ++ rest)) =
        .ok (if d = -1 then
            .inr (.holding be (refresh sigs frame.signals) extra time, events ++ [shownCycle extra sigs time frame])
          else
            .inl (.holding be (refresh sigs frame.signals) extra (time + d),
              events ++ [shownCycle extra sigs time frame]), rest) := by
    have shows : (Handler.holding be (refresh sigs frame.signals) extra time).vals =
        shown (updated (sigs.map GhwSig.val) frame.signals) extra := by
      show (table _ extra).map GhwSig.val = _
      rw [table_vals, refresh_vals]
    unfold readCycleStep
    rw [Reader.bind_of_ok (reads_cycleCont typed readable natural _)]
    show (readCycleNext _ >>= _) _ = _
    rw [shows]
    have next : readCycleNext (.holding be (refresh sigs frame.signals) extra time) (wavePutLsleb128 d ++ rest) =
        .ok (if d = -1 then (false, .holding be (refresh sigs frame.signals) extra time)
          else (true, .holding be (refresh sigs frame.signals) extra (time + d)), rest) := by
      unfold readCycleNext
      rw [Reader.bind_of_ok (reads_lsleb128 d rest)]
      split <;> rfl
    rw [Reader.bind_of_ok next]
    by_cases ends : d = -1
    · rw [if_pos ends, if_pos ends]
      rfl
    · rw [if_neg ends, if_neg ends]
      rfl
  unfold resume
  rw [Reader.iterate_eq readCycle_advances]
  by_cases ends : d = -1
  · rw [if_pos ends]
    rw [if_pos ends] at step
    rw [Reader.bind_of_ok (Reader.bind_of_ok step _)]
    rfl
  · rw [if_neg ends]
    rw [if_neg ends] at step
    rw [Reader.bind_apply, Reader.bind_of_ok step]
    rfl

theorem typed_frame (typed : sigs.map GhwSig.type = kinds.map some) (same : frame.signals.map Signal.kind = kinds) :
    Typed sigs frame.signals := by
  unfold Typed
  rw [typed, ← same, List.map_map]
  rfl

theorem readable_frame (readable : ∀ kind ∈ kinds, kind.Readable) (same : frame.signals.map Signal.kind = kinds) :
    ∀ sig ∈ frame.signals, sig.kind.Readable :=
  fun sig inside => readable sig.kind (same ▸ List.mem_map_of_mem inside)

theorem natural_frame (natural : kinds.length < 2 ^ 31) (same : frame.signals.map Signal.kind = kinds) :
    frame.signals.length < 2 ^ 31 := by
  rwa [← same, List.length_map] at natural

variable (be extra events) in
/-- A dump goes on: the cycles are read back when no distance between them is -1, and only then. -/
theorem resume_iff (readable : ∀ kind ∈ kinds, kind.Readable) (natural : kinds.length < 2 ^ 31)
    (typed : sigs.map GhwSig.type = kinds.map some) (each : ∀ f ∈ frame :: frames, f.signals.map Signal.kind = kinds)
    (ordered : ((frame :: frames).map Frame.currentTime).IsChain fun before after => before.toInt ≤ after.toInt) :
    resume (.holding be sigs extra frame.currentTime, events)
        (dumpSignals 1 0 frame.signals ++ waveCycles be ⟨frame.currentTime, true⟩ frames) =
          .ok (events ++ cycleEvents extra (sigs.map GhwSig.val) (frame :: frames), []) ↔
      ((frame :: frames).map Frame.currentTime).IsChain fun before after =>
        ¬ (before = BitVec.intMin 64 ∧ after = BitVec.intMax 64) := by
  induction frames generalizing frame sigs events with
  | nil =>
    have same := each frame List.mem_cons_self
    have run := resume_cycle be extra frame.currentTime events
      (typed_frame typed same) (readable_frame readable same) (natural_frame natural same) (-1)
      (tag 'E' 'C' 'Y').toList
    rw [if_pos rfl, finish_done] at run
    exact iff_of_true run (List.IsChain.singleton _)
  | cons next frames ih =>
    obtain ⟨later, chain⟩ := List.isChain_cons_cons.mp ordered
    have bytes : dumpSignals 1 0 frame.signals ++ waveCycles be ⟨frame.currentTime, true⟩ (next :: frames) =
        dumpSignals 1 0 frame.signals ++ (wavePutLsleb128 (next.currentTime - frame.currentTime) ++
          (dumpSignals 1 0 next.signals ++ waveCycles be ⟨next.currentTime, true⟩ frames)) := by
      simp [waveCycles, waveCycle]
    have sum : frame.currentTime + (next.currentTime - frame.currentTime) = next.currentTime := by
      rw [BitVec.add_comm, BitVec.sub_add_cancel]
    have mark := sub_eq_neg_one later
    have same := each frame List.mem_cons_self
    have typed' := typed_frame typed same
    rw [bytes, resume_cycle be extra _ events typed' (readable_frame readable same) (natural_frame natural same), sum]
    rw [List.map_cons, List.map_cons, List.isChain_cons_cons, ← List.map_cons]
    by_cases ends : next.currentTime - frame.currentTime = -1
    · rw [if_pos ends]
      refine iff_of_false (fun run => ?_) fun both => both.1 (mark.mp ends)
      -- The cycle at the last time does not follow the mark of the end.
      obtain ⟨more, isMore, first⟩ := finish_follows opens_before_last run
      have tail : more = cycleEvents extra (updated (sigs.map GhwSig.val) frame.signals) (next :: frames) := by
        have both : events ++ [shownCycle extra sigs frame.currentTime frame] ++ more =
            events ++ [shownCycle extra sigs frame.currentTime frame] ++
              cycleEvents extra (updated (sigs.map GhwSig.val) frame.signals) (next :: frames) := by
          rw [← isMore, List.append_assoc]
          rfl
        exact List.append_cancel_left both
      exact first _ (by rw [tail]; rfl) next.currentTime _ _ rfl (mark.mp ends).2
    · rw [if_neg ends, and_iff_right (fun both => ends (mark.mpr both))]
      have grown : (refresh sigs frame.signals).map GhwSig.type = kinds.map some := by
        rw [typed'.refresh, ← same, List.map_map]
        rfl
      have rest := ih (events ++ [shownCycle extra sigs frame.currentTime frame]) grown
        (fun f inside => each f (List.mem_cons_of_mem _ inside)) chain
      rw [refresh_vals, List.append_assoc] at rest
      exact rest

theorem readDump_section (state : Handler × List Event) (b : UInt8) (rest : List UInt8) :
    Reader.iterate ReadError.exhausted readDumpStep state (b :: rest) =
      (readSection state >>= Reader.iterate ReadError.exhausted readDumpStep) (b :: rest) := by
  have more : Reader.atEnd (ε := ReadError) (b :: rest) = .ok (false, b :: rest) := rfl
  rw [Reader.iterate_eq readDump_advances, Reader.bind_apply, readDumpStep, Reader.bind_of_ok more]
  cases run : readSection state (b :: rest) with
  | error e =>
    rw [if_neg Bool.false_ne_true, Reader.bind_of_error run, Reader.bind_of_error run]
    rfl
  | ok r =>
    rw [if_neg Bool.false_ne_true, Reader.bind_of_ok run, Reader.bind_of_ok run]
    rfl

theorem readSection_snapshot (state : Handler × List Event) (rest : List UInt8) :
    readSection state ((tag 'S' 'N' 'P').toList ++ rest) =
      (readSnapshot state.1 >>= fun h => pure (h, state.2 ++ [.snapshot h.snapTime h.vals])) rest := by
  unfold readSection
  rw [Reader.bind_of_ok (Reads.take ReadError.eof (tag 'S' 'N' 'P') rest), if_pos rfl]

theorem readSection_cycle (state : Handler × List Event) (rest : List UInt8) :
    readSection state ((tag 'C' 'Y' 'C').toList ++ rest) = readCycle state.1 state.2 rest := by
  have other : tag 'C' 'Y' 'C' ≠ tag 'S' 'N' 'P' := by decide
  unfold readSection
  rw [Reader.bind_of_ok (Reads.take ReadError.eof (tag 'C' 'Y' 'C') rest), if_neg other, if_pos rfl]

theorem writeSnapshot_append (be : Bool) (frame : Frame) (rest : List UInt8) : writeSnapshot be frame ++ rest =
      (tag 'S' 'N' 'P').toList ++ ([0, 0, 0, 0] ++ ((wavePutI64 be frame.currentTime).toList ++
        (frame.signals.flatMap (fun sig => writeValue sig.value) ++ ((tag 'E' 'S' 'N').toList ++ rest)))) := by
  simp only [writeSnapshot, List.append_assoc]

theorem opened_eq (same : frame.signals.map Signal.kind = kinds) :
    Handler.opened be kinds extra = .holding be (frame.signals.map fun sig => ⟨some sig.kind, none⟩) extra 0 := by
  unfold Handler.opened Handler.holding
  rw [← same, List.map_map]
  rfl

theorem readDump_snapshot (readable : ∀ sig ∈ frame.signals, sig.kind.Readable)
    (same : frame.signals.map Signal.kind = kinds) (rest : List UInt8) :
    readDump (.opened be kinds extra) (writeSnapshot be frame ++ rest) = Reader.iterate ReadError.exhausted readDumpStep
        (.holding be (frame.signals.map fun sig => ⟨some sig.kind, sig.value.ghw⟩) extra (seen frame.currentTime),
          [.snapshot (seen frame.currentTime) (shown (frame.signals.map fun sig => sig.value.ghw) extra)]) rest := by
  have read := reads_snapshot be extra readable (fun _ => none) 0 rest
  rw [List.append_assoc, List.append_assoc, List.append_assoc] at read
  have shows : (Handler.holding be (frame.signals.map fun sig => ⟨some sig.kind, sig.value.ghw⟩) extra
      (seen frame.currentTime)).vals = shown (frame.signals.map fun sig => sig.value.ghw) extra := by
    show (table _ extra).map GhwSig.val = _
    rw [table_vals, List.map_map]
    rfl
  rw [writeSnapshot_append, opened_eq same]
  refine (readDump_section _ _ _).trans ?_
  have head : readSection (.holding be (frame.signals.map fun sig => ⟨some sig.kind, none⟩) extra 0, [])
      ((tag 'S' 'N' 'P').toList ++ _) = _ :=
    (readSection_snapshot _ _).trans (Reader.bind_of_ok read _)
  rw [← shows]
  exact Reader.bind_of_ok head _

variable (be extra) in
theorem readDump_abort (unreadable : ∃ sig ∈ frame.signals, ¬ sig.kind.Readable)
    (same : frame.signals.map Signal.kind = kinds) (rest : List UInt8) :
    readDump (.opened be kinds extra) (writeSnapshot be frame ++ rest) = .error .abort := by
  have stops := readSnapshot_abort be extra 0 unreadable ((tag 'E' 'S' 'N').toList ++ rest)
  rw [writeSnapshot_append, opened_eq same]
  refine (readDump_section _ _ _).trans ?_
  have head : readSection (.holding be (frame.signals.map fun sig => ⟨some sig.kind, none⟩) extra 0, [])
      ((tag 'S' 'N' 'P').toList ++ _) = _ :=
    (readSection_snapshot _ _).trans (Reader.bind_of_error stops _)
  exact Reader.bind_of_error head _

variable (time frame frames events) in
theorem readDump_cycles (h : Handler) (same : h.wordBe = be) :
    Reader.iterate ReadError.exhausted readDumpStep (h, events) (waveCycles be ⟨time, false⟩ (frame :: frames)) =
      resume ({ h with snapTime := seen frame.currentTime }, events)
        (dumpSignals 1 0 frame.signals ++ waveCycles be ⟨frame.currentTime, true⟩ frames) := by
  have bytes : waveCycles be ⟨time, false⟩ (frame :: frames) =
      (tag 'C' 'Y' 'C').toList ++ ((wavePutI64 be frame.currentTime).toList ++
        (dumpSignals 1 0 frame.signals ++ waveCycles be ⟨frame.currentTime, true⟩ frames)) := by
    simp [waveCycles, waveCycle]
  rw [bytes]
  generalize dumpSignals 1 0 frame.signals ++ waveCycles be ⟨frame.currentTime, true⟩ frames = body
  refine (readDump_section _ _ _).trans ?_
  rw [Reader.bind_apply]
  have head : readSection (h, events) ((tag 'C' 'Y' 'C').toList ++ ((wavePutI64 be frame.currentTime).toList ++ body)) =
      (do
        let r ← Reader.iterate ReadError.exhausted readCycleStep ({ h with snapTime := seen frame.currentTime }, events)
        readCycleEnd
        return r : GhwReader (Handler × List Event)) body := by
    have start : Reads (readCycleStart h) (wavePutI64 be frame.currentTime).toList
        { h with snapTime := seen frame.currentTime } := by
      rw [← getI64_wavePutI64 be, ← same]
      exact (Reads.take ReadError.eof _).map _
    rw [readSection_cycle]
    exact Reader.bind_of_ok (start _) _
  refine (congrArg (· >>= _) head).trans ?_
  rw [← Reader.bind_apply, bind_assoc]
  simp only [bind_assoc, pure_bind]
  rfl

theorem waveCycles_open (be : Bool) (time : BitVec 64) (frames : List Frame) :
    ∃ d rest, waveCycles be ⟨time, true⟩ frames = wavePutLsleb128 d ++ rest := by
  cases frames with
  | nil => exact ⟨-1, (tag 'E' 'C' 'Y').toList, rfl⟩
  | cons frame frames =>
    refine ⟨frame.currentTime - time, dumpSignals 1 0 frame.signals ++ waveCycles be ⟨frame.currentTime, true⟩ frames,
      ?_⟩
    simp [waveCycles, waveCycle]

theorem resume_first (typed : Typed sigs frame.signals) (readable : ∀ sig ∈ frame.signals, sig.kind.Readable)
    (natural : frame.signals.length < 2 ^ 31) (run : resume (.holding be sigs extra time, events)
      (dumpSignals 1 0 frame.signals ++ waveCycles be ⟨frame.currentTime, true⟩ frames) = .ok (result, rest)) :
    ∃ more, result = events ++ [shownCycle extra sigs time frame] ++ more := by
  obtain ⟨d, bytes, same⟩ := waveCycles_open be frame.currentTime frames
  rw [same, resume_cycle be extra time events typed readable natural] at run
  split at run
  · obtain ⟨more, isMore, _⟩ := finish_follows opens_true run
    exact ⟨more, isMore⟩
  · exact resume_follows run

variable (be extra time events) in
/-- After a snapshot the cycles are read back when the time of the first one is whole and no distance between them
is -1, and only then. -/
theorem cycles_iff (readable : ∀ kind ∈ kinds, kind.Readable) (natural : kinds.length < 2 ^ 31)
    (typed : sigs.map GhwSig.type = kinds.map some) (each : ∀ f ∈ frames, f.signals.map Signal.kind = kinds)
    (ordered : (frames.map Frame.currentTime).IsChain fun before after => before.toInt ≤ after.toInt) :
    Reader.iterate ReadError.exhausted readDumpStep (.holding be sigs extra time, events)
        (waveCycles be ⟨0, false⟩ frames) = .ok (events ++ cycleEvents extra (sigs.map GhwSig.val) frames, []) ↔
      (∀ frame ∈ frames.head?, Whole frame.currentTime) ∧ (frames.map Frame.currentTime).IsChain fun before after =>
          ¬ (before = BitVec.intMin 64 ∧ after = BitVec.intMax 64) := by
  cases frames with
  | nil =>
    have done := readDump_done (.holding be sigs extra time, events)
    refine iff_of_true ?_ ⟨fun frame inside => absurd inside (Option.not_mem_none frame), List.IsChain.nil⟩
    show _ = Except.ok (events ++ [], [])
    rw [List.append_nil]
    exact done
  | cons frame frames =>
    have same := each frame List.mem_cons_self
    have whole : (∀ f ∈ (frame :: frames).head?, Whole f.currentTime) ↔ Whole frame.currentTime := by simp
    have cycles := readDump_cycles 0 frame frames events (.holding be sigs extra time) (rfl : _ = be)
    rw [cycles, whole, ← seen_iff]
    by_cases first : seen frame.currentTime = frame.currentTime
    · rw [first, and_iff_right rfl]
      exact resume_iff be extra events readable natural typed each ordered
    refine iff_of_false (fun run => ?_) fun both => first both.1
    obtain ⟨more, isMore⟩ := resume_first (typed_frame typed same) (readable_frame readable same)
      (natural_frame natural same) run
    rw [List.append_assoc] at isMore
    have heads := (List.cons.inj (List.append_cancel_left isMore)).1
    exact first (Event.cycle.inj heads).1.symm

/-- The snapshot and the cycles that are written are read back when the dump is exact, and only then: it has no
signal of a kind that is not read, the time of its snapshot and that of its first cycle are whole, and it does not
step from the first to the last time. -/
theorem Dump.read_write_iff (dump : Dump) (ordered : dump.Ordered) (be : Bool) (extra : Nat) :
    readDump (.opened be dump.kinds extra) (dump.write be) = .ok (dump.events extra, []) ↔ dump.Exact := by
  by_cases readable : ∀ kind ∈ dump.kinds, kind.Readable
  · have typed : (dump.start.signals.map fun sig => (⟨some sig.kind, sig.value.ghw⟩ : GhwSig)).map GhwSig.type =
        dump.kinds.map some := by
      rw [← dump.startKinds, List.map_map, List.map_map]
      rfl
    have vals : (dump.start.signals.map fun sig => (⟨some sig.kind, sig.value.ghw⟩ : GhwSig)).map GhwSig.val =
        dump.vals := by
      rw [List.map_map]
      rfl
    unfold Dump.write
    rw [readDump_snapshot (readable_frame readable dump.startKinds) dump.startKinds]
    by_cases start : seen dump.start.currentTime = dump.start.currentTime
    · rw [start]
      have cycles := cycles_iff be extra dump.start.currentTime
        [.snapshot dump.start.currentTime (shown dump.vals extra)] readable dump.natural typed dump.cycleKinds ordered
      rw [vals] at cycles
      exact cycles.trans ⟨fun both => ⟨readable, (seen_iff _).mp start, both.1, both.2⟩,
        fun exact => ⟨exact.first, exact.steps⟩⟩
    · refine iff_of_false (fun run => ?_) fun exact => start ((seen_iff _).mpr exact.start)
      obtain ⟨more, isMore, _⟩ := dump_follows opens_true run (Follows.refl _ _)
      exact start (Event.snapshot.inj (List.cons.inj isMore).1).1.symm
  · refine iff_of_false (fun run => ?_) fun exact => readable exact.kinds
    have unreadable : ∃ sig ∈ dump.start.signals, ¬ sig.kind.Readable := by
      obtain ⟨kind, inside, unreadable⟩ : ∃ kind ∈ dump.kinds, ¬ kind.Readable := by
        by_contra none
        exact readable fun kind inside => by_contra fun unreadable => none ⟨kind, inside, unreadable⟩
      rw [← dump.startKinds] at inside
      obtain ⟨sig, member, rfl⟩ := List.mem_map.mp inside
      exact ⟨sig, member, unreadable⟩
    have stops := readDump_abort be extra unreadable dump.startKinds (waveCycles be ⟨0, false⟩ dump.cycles)
    have both := stops.symm.trans run
    cases both

/-- A boolean and a time, which change at once and then one by one. -/
def toggling : Dump where
  kinds := [.b1, .p64]
  natural := by decide
  start := ⟨0, [⟨.b1, .b1 false, false, rfl⟩, ⟨.p64, .i64 0, false, rfl⟩]⟩
  startKinds := rfl
  cycles := [⟨0, [⟨.b1, .b1 true, true, rfl⟩, ⟨.p64, .i64 (-5), true, rfl⟩]⟩,
    ⟨5000000000, [⟨.b1, .b1 true, false, rfl⟩, ⟨.p64, .i64 (2 ^ 40), true, rfl⟩]⟩]
  cycleKinds := by decide

theorem Dump.read_write_iff_toggling :
    readDump (.opened false toggling.kinds 1) (toggling.write false) = .ok (toggling.events 1, []) :=
  (Dump.read_write_iff toggling (by unfold Dump.Ordered; decide) false 1).mpr ⟨by decide, by decide, by decide, by decide⟩

/-- A signal of an integer type of 64 bits. -/
def wideInteger : Dump where
  kinds := [.i64]
  natural := by decide
  start := ⟨0, [⟨.i64, .i64 5, false, rfl⟩]⟩
  startKinds := rfl
  cycles := []
  cycleKinds := by decide

theorem Dump.read_write_wideInteger : wideInteger.Ordered ∧
    readDump (.opened false wideInteger.kinds 0) (wideInteger.write false) ≠ .ok (wideInteger.events 0, []) := by
  unfold Dump.Ordered
  decide +kernel

end Ghdl.Ghw
