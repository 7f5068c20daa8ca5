import Ghdl.System.Fallible

/-!
# Netlists

The tables of `netlists`: instances, nets and inputs. A net is an output of an instance, and the inputs
it drives are threaded from `First_Sink` through `Next_Sink`. `No_Net` and `No_Input` are `none`.
-/

namespace Ghdl.Synth

open Function

/-- `Instance`, zero is `No_Instance`. -/
abbrev Instance := Nat

/-- `Net`, numbered from one. -/
abbrev Net := Nat

/-- `Input`, numbered from one. -/
abbrev Input := Nat

/-- `Width`, zero is `No_Width`. -/
abbrev Width := Nat

/-- What stops synthesis. -/
inductive SynthError where
  /-- A failed `pragma Assert`. -/
  | assertion
  /-- `Internal_Error`. -/
  | internalError
  /-- A loop that does not end. -/
  | endless
deriving DecidableEq, Repr

/-- The result of a subprogram that may raise an exception. -/
abbrev Outcome := Except SynthError

/-- A `pragma Assert`. -/
def check (condition : Prop) [Decidable condition] : Outcome Unit :=
  if condition then .ok () else .error .assertion

theorem check_of {condition : Prop} [Decidable condition] (holds : condition) : check condition = .ok () :=
  if_pos holds

/-- `Module_Id`: the gates whose meaning is used, and the others by their numbers. -/
inductive ModuleId where
  | mux2
  | mux4
  | extract
  | monadic (id : Nat)
  | dyadic (id : Nat)
  | other (id : Nat)
deriving DecidableEq, Repr

/-- `Instance_Record`. -/
structure InstanceRecord where
  /-- The identifier of `Klass`. -/
  klass : ModuleId
  firstParam : Nat
  firstInput : Input
  firstOutput : Net

/-- `Input_Record`. -/
structure InputRecord where
  parent : Instance
  driver : Option Net
  nextSink : Option Input

/-- `Net_Record`. -/
structure NetRecord where
  parent : Instance
  firstSink : Option Input
  w : Width

/-- `Instances_Table`, `Inputs_Table`, `Nets_Table` and `Params_Table`, each up to its last entry. -/
structure Netlist where
  instances : Instance → InstanceRecord
  lastInstance : Instance
  inputs : Input → InputRecord
  lastInput : Input
  nets : Net → NetRecord
  lastNet : Net
  params : Nat → Nat
  lastParam : Nat

namespace Netlist

/-- The tables before anything is built. -/
def empty : Netlist where
  instances _ := { klass := .other 0, firstParam := 0, firstInput := 0, firstOutput := 0 }
  lastInstance := 0
  inputs _ := { parent := 0, driver := none, nextSink := none }
  lastInput := 0
  nets _ := { parent := 0, firstSink := none, w := 0 }
  lastNet := 0
  params _ := 0
  lastParam := 0

variable (t : Netlist)

/-- `Is_Valid` of an input. -/
def ValidInput (i : Input) : Prop := 0 < i ∧ i ≤ t.lastInput

/-- `Is_Valid` of a net. -/
def ValidNet (o : Net) : Prop := 0 < o ∧ o ≤ t.lastNet

instance (i : Input) : Decidable (t.ValidInput i) := inferInstanceAs (Decidable (_ ∧ _))

instance (o : Net) : Decidable (t.ValidNet o) := inferInstanceAs (Decidable (_ ∧ _))

/-- `Get_Driver`. -/
def getDriver (i : Input) : Option Net := (t.inputs i).driver

/-- `Get_Next_Sink`. -/
def getNextSink (i : Input) : Option Input := (t.inputs i).nextSink

/-- `Get_First_Sink`. -/
def getFirstSink (o : Net) : Option Input := (t.nets o).firstSink

/-- `Get_Width`. -/
def getWidth (o : Net) : Width := (t.nets o).w

/-- The entry of an input is replaced. -/
def setInput (i : Input) (entry : InputRecord) : Netlist :=
  { t with inputs := update t.inputs i entry }

/-- The first sink of a net is replaced. -/
def setFirstSink (o : Net) (sink : Option Input) : Netlist :=
  { t with nets := update t.nets o { t.nets o with firstSink := sink } }

/-- The next sink of an input is replaced. -/
def setNextSink (i : Input) (sink : Option Input) : Netlist :=
  t.setInput i { t.inputs i with nextSink := sink }

/-- `New_Instance_Internal`: the inputs are not connected, the nets have no sinks and the widths of the
descriptions of the outputs, and the parameters are zero. -/
def newInstance (klass : ModuleId) (nbrInputs : Nat) (outputs : List Width) (nbrParams : Nat) :
    Instance × Netlist :=
  (t.lastInstance + 1,
    { instances := update t.instances (t.lastInstance + 1)
        { klass, firstParam := t.lastParam + 1, firstInput := t.lastInput + 1
          firstOutput := t.lastNet + 1 }
      lastInstance := t.lastInstance + 1
      inputs := fun i =>
        if i ≤ t.lastInput then t.inputs i
        else { parent := t.lastInstance + 1, driver := none, nextSink := none }
      lastInput := t.lastInput + nbrInputs
      nets := fun o =>
        if o ≤ t.lastNet then t.nets o
        else
          { parent := t.lastInstance + 1, firstSink := none
            w := outputs.getD (o - (t.lastNet + 1)) 0 }
      lastNet := t.lastNet + outputs.length
      params := fun p => if p ≤ t.lastParam then t.params p else 0
      lastParam := t.lastParam + nbrParams })

/-- `Connect`. -/
def connect (i : Input) (o : Net) : Outcome Netlist := do
  check (t.ValidInput i)
  check (t.ValidNet o)
  check (t.getDriver i = none)
  return (t.setInput i { t.inputs i with driver := some o, nextSink := t.getFirstSink o }).setFirstSink o
    (some i)

/-- The walk of `Disconnect`, from the sink S on: the link to I is replaced. -/
def disconnectWalk (i : Input) (nextSink : Option Input) : Nat → Option Input → Netlist → Outcome Netlist
  | 0, _, _ => .error .endless
  | _ + 1, none, _ => .error .assertion
  | fuel + 1, some s, t => do
    check (t.ValidInput s)
    if t.getNextSink s = some i then return t.setNextSink s nextSink
    else disconnectWalk i nextSink fuel (t.getNextSink s) t

/-- `Disconnect`. -/
def disconnect (i : Input) : Outcome Netlist := do
  check (t.ValidInput i)
  match t.getDriver i with
  | none => .error .assertion
  | some drv =>
    let nextSink := t.getNextSink i
    let t := t.setInput i { t.inputs i with nextSink := none, driver := none }
    if t.getFirstSink drv = some i then return t.setFirstSink drv nextSink
    else disconnectWalk i nextSink (t.lastInput + 1) (t.getFirstSink drv) t

/-- The loop of `Redirect_Inputs`, with the last input that was redirected. -/
def redirectWalk (old n : Net) : Nat → Option Input → Option Input → Netlist →
    Outcome (Option Input × Netlist)
  | 0, _, _, _ => .error .endless
  | _ + 1, none, prevI, t => .ok (prevI, t)
  | fuel + 1, some i, prevI, t => do
    check (t.getDriver i = some old)
    let t := t.setInput i { t.inputs i with driver := some n }
    let t := match prevI with
      | none => t
      | some p => t.setNextSink p (some i)
    redirectWalk old n fuel (t.getNextSink i) (some i) t

/-- `Redirect_Inputs`. -/
def redirectInputs (old n : Net) : Outcome Netlist := do
  check (t.ValidNet old)
  match t.getFirstSink old with
  | none => return t
  | some firstI => do
    let (prevI, t) ← redirectWalk old n (t.lastInput + 1) (some firstI) none t
    match prevI with
    | none => return t
    | some p => do
      check (t.ValidNet n)
      return (t.setNextSink p (t.getFirstSink n)).setFirstSink n (some firstI)

end Netlist

end Ghdl.Synth
