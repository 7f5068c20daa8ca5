import Ghdl.Ghw.Values

/-!
# The value changes of a GHW file

`grt-waves` writes the values of the dumped signals once, in a snapshot, and then after each cycle the values of
those that changed, each one after the distance from the previous one; the time of a cycle is written as its
distance from that of the previous cycle, and -1 ends them. `ghwlib` reads them into the table of signals.
-/

namespace Ghdl.Ghw

open Bytes

/-- A signal of `Dump_Table`: the mode of its value is that of its type. -/
structure Signal where
  kind : Rtik
  value : Value
  roEvent : Bool
  agrees : value.mode = kind.mode

/-- The time and the signals when they are dumped. -/
structure Frame where
  currentTime : BitVec 64
  signals : List Signal

/-- `Wave_Time` and `In_Cyc`. -/
structure Wave where
  waveTime : BitVec 64
  inCyc : Bool
deriving DecidableEq, Repr

/-- `Write_Snapshot`. -/
def writeSnapshot (be : Bool) (frame : Frame) : List UInt8 :=
  (tag 'S' 'N' 'P').toList ++ [0, 0, 0, 0] ++ (wavePutI64 be frame.currentTime).toList ++
    frame.signals.flatMap (fun sig => writeValue sig.value) ++ (tag 'E' 'S' 'N').toList

/-- The loop of `Wave_Cycle` over the signals from number I on. -/
def dumpSignals (i last : Nat) : List Signal → List UInt8
  | [] => [0]
  | sig :: rest =>
    if sig.roEvent then wavePutUleb128 (i - last) ++ writeValue sig.value ++ dumpSignals (i + 1) i rest
    else dumpSignals (i + 1) last rest

/-- `Wave_Cycle`: the next frame has the flags that are set after this one has cleared them. -/
def waveCycle (be : Bool) (w : Wave) (frame : Frame) : List UInt8 × Wave :=
  let start :=
    if !w.inCyc then (tag 'C' 'Y' 'C').toList ++ (wavePutI64 be frame.currentTime).toList
    else wavePutLsleb128 (frame.currentTime - w.waveTime)
  (start ++ dumpSignals 1 0 frame.signals, ⟨frame.currentTime, true⟩)

/-- `Wave_Close_Cyc`. -/
def waveCloseCyc : List UInt8 := wavePutLsleb128 (-1) ++ (tag 'E' 'C' 'Y').toList

/-- The cycles of a simulation, and `Wave_End`. -/
def waveCycles (be : Bool) (w : Wave) : List Frame → List UInt8
  | [] => if w.inCyc then waveCloseCyc else []
  | frame :: rest => (waveCycle be w frame).1 ++ waveCycles be (waveCycle be w frame).2 rest

/-- `struct ghw_sig`: the signals that are not dumped have no type, and VAL is set when a value is read. -/
structure GhwSig where
  type : Option Rtik
  val : Option GhwVal
deriving DecidableEq, Repr

/-- The fields of `struct ghw_handler` that the values depend on. -/
structure Handler where
  wordBe : Bool
  sigs : List GhwSig
  snapTime : BitVec 64
deriving DecidableEq, Repr

/-- What a user of `ghwlib` sees: a snapshot, or a cycle with the signals that changed; and the values. -/
inductive Event where
  | snapshot (time : BitVec 64) (vals : List (Option GhwVal))
  | cycle (time : BitVec 64) (changed : List Nat) (vals : List (Option GhwVal))
deriving DecidableEq, Repr

def Handler.vals (h : Handler) : List (Option GhwVal) := h.sigs.map GhwSig.val

/-- `ghw_read_signal_value`, where the signals without a type are left alone. -/
def readSignalValue (s : GhwSig) : GhwReader GhwSig :=
  match s.type with
  | none => return s
  | some type => do
    let val ← readValue type
    return ⟨some type, some val⟩

/-- `ghw_read_snapshot`. -/
def readSnapshot (h : Handler) : GhwReader Handler := do
  expect #v[0, 0, 0, 0]
  let b ← Reader.take ReadError.eof 8
  let sigs ← h.sigs.mapM readSignalValue
  expect (tag 'E' 'S' 'N')
  return { h with sigs, snapTime := getI64 h.wordBe b }

/-- `ghw_read_cycle_start`. -/
def readCycleStart (h : Handler) : GhwReader Handler := do
  let b ← Reader.take ReadError.eof 8
  return { h with snapTime := getI64 h.wordBe b }

/-- Find next signal: SIGS are those after I. -/
def nextSignal : List GhwSig → Nat → Nat → Option Nat
  | _, i, 0 => some i
  | [], _, _ + 1 => none
  | s :: rest, i, d + 1 => nextSignal rest (i + 1) (if s.type.isSome then d else d + 1)

/-- Read the value of signal I. -/
def readSignalAt (sigs : List GhwSig) (i : Nat) : GhwReader (List GhwSig) :=
  match sigs[i]? with
  | none => Reader.fail ReadError.bounds
  | some s => do
    let s ← readSignalValue s
    return sigs.set i s

/-- One iteration of `ghw_read_cycle_cont`: the signals, I, and the list of those that were read. -/
def readCycleContStep (state : List GhwSig × Nat × List Nat) :
    GhwReader ((List GhwSig × Nat × List Nat) ⊕ (List GhwSig × List Nat)) := do
  let d ← readUleb128
  if d = 0 then return .inr (state.1, state.2.2)
  else
    match nextSignal (state.1.drop (state.2.1 + 1)) state.2.1 d.toNat with
    | none => Reader.fail ReadError.bounds
    | some i =>
      let sigs ← readSignalAt state.1 i
      return .inl (sigs, i, state.2.2 ++ [i])

/-- `ghw_read_cycle_cont`. -/
def readCycleCont (h : Handler) : GhwReader (Handler × List Nat) := do
  let r ← Reader.iterate ReadError.exhausted readCycleContStep (h.sigs, 0, [])
  return ({ h with sigs := r.1 }, r.2)

/-- `ghw_read_cycle_next`: whether there is a cycle. -/
def readCycleNext (h : Handler) : GhwReader (Bool × Handler) := do
  let dTime ← readLsleb128
  if dTime = -1 then return (false, h) else return (true, { h with snapTime := h.snapTime + dTime })

/-- `ghw_read_cycle_end`. -/
def readCycleEnd : GhwReader Unit := expect (tag 'E' 'C' 'Y')

/-- One iteration of `ghw_read_cycle`, after `ghw_read_cycle_start`. -/
def readCycleStep (state : Handler × List Event) : GhwReader ((Handler × List Event) ⊕ (Handler × List Event)) := do
  let r ← readCycleCont state.1
  let events := state.2 ++ [.cycle r.1.snapTime r.2 r.1.vals]
  let next ← readCycleNext r.1
  return if next.1 then .inl (next.2, events) else .inr (next.2, events)

/-- `ghw_read_cycle`. -/
def readCycle (h : Handler) (events : List Event) : GhwReader (Handler × List Event) := do
  let h ← readCycleStart h
  let r ← Reader.iterate ReadError.exhausted readCycleStep (h, events)
  readCycleEnd
  return r

/-- The sections that `ghw_read_dump` knows, here. -/
def readSection (state : Handler × List Event) : GhwReader (Handler × List Event) := do
  let hdr ← Reader.take ReadError.eof 4
  if hdr = tag 'S' 'N' 'P' then
    let h ← readSnapshot state.1
    return (h, state.2 ++ [.snapshot h.snapTime h.vals])
  else if hdr = tag 'C' 'Y' 'C' then readCycle state.1 state.2
  else Reader.fail ReadError.format

/-- One iteration of `ghw_read_dump`. -/
def readDumpStep (state : Handler × List Event) : GhwReader ((Handler × List Event) ⊕ List Event) := do
  let eof ← Reader.atEnd
  if eof then return .inr state.2
  else
    let state ← readSection state
    return .inl state

/-- `ghw_read_dump`, up to the end of the file: what it shows. -/
def readDump (h : Handler) : GhwReader (List Event) := Reader.iterate ReadError.exhausted readDumpStep (h, [])

end Ghdl.Ghw
