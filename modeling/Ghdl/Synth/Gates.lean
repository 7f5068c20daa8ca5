import Mathlib
import Ghdl.Synth.Sinks

/-!
# Gates and their values

The builders of `netlists-builders` that make multiplexers and extracts, and the values of the nets: the nets
that were there before synthesis are given, and the others are outputs of gates. Building a gate leaves the
values of the other nets as they are.
-/

namespace Ghdl.Synth

open Function

namespace Netlist

/-- `Set_Width`. -/
def setWidth (t : Netlist) (o : Net) (w : Width) : Outcome Netlist := do
  check (t.ValidNet o)
  if t.getWidth o ≠ 0 then .error .internalError
  else return { t with nets := update t.nets o { t.nets o with w } }

/-- The nets are connected to the inputs of an instance, in order. -/
def connectInputs : Input → List Net → Netlist → Outcome Netlist
  | _, [], t => .ok t
  | i, o :: os, t => do
    let t ← t.connect i o
    connectInputs (i + 1) os t

/-- An instance of a gate with one output, its connections and its parameters. -/
def buildGate (t : Netlist) (klass : ModuleId) (wd : Width) (inputs : List Net) (params : List Nat) :
    Outcome (Net × Netlist) := do
  let (inst, t) := t.newInstance klass inputs.length [0] params.length
  let o := (t.instances inst).firstOutput
  let t ← t.setWidth o wd
  let t ← connectInputs (t.instances inst).firstInput inputs t
  let first := (t.instances inst).firstParam
  return (o, { t with
    params := fun p => if first ≤ p then (params[p - first]?).getD (t.params p) else t.params p })

/-- `Build_Mux2`. -/
def buildMux2 (t : Netlist) (sel i0 i1 : Net) : Outcome (Net × Netlist) := do
  check (t.ValidNet i0)
  let wd := t.getWidth i0
  check (wd ≠ 0)
  check (t.ValidNet i1)
  check (t.getWidth i1 = wd)
  check (t.ValidNet sel)
  check (t.getWidth sel = 1)
  t.buildGate .mux2 wd [sel, i0, i1] []

/-- `Build_Mux4`. -/
def buildMux4 (t : Netlist) (sel i0 i1 i2 i3 : Net) : Outcome (Net × Netlist) := do
  check (t.ValidNet i0)
  let wd := t.getWidth i0
  check (wd ≠ 0)
  check (t.ValidNet i1)
  check (t.getWidth i1 = wd)
  check (t.ValidNet i2)
  check (t.getWidth i2 = wd)
  check (t.ValidNet i3)
  check (t.getWidth i3 = wd)
  check (t.ValidNet sel)
  check (t.getWidth sel = 2)
  t.buildGate .mux4 wd [sel, i0, i1, i2, i3] []

/-- `Build_Monadic`. -/
def buildMonadic (t : Netlist) (id : Nat) (op : Net) : Outcome (Net × Netlist) := do
  check (t.ValidNet op)
  t.buildGate (.monadic id) (t.getWidth op) [op] []

/-- `Build_Dyadic`. -/
def buildDyadic (t : Netlist) (id : Nat) (l r : Net) : Outcome (Net × Netlist) := do
  check (t.ValidNet l)
  let wd := t.getWidth l
  check (wd ≠ 0)
  check (t.ValidNet r)
  check (t.getWidth r = wd)
  t.buildGate (.dyadic id) wd [l, r] []

/-- `Build_Slice`. -/
def buildSlice (t : Netlist) (i : Net) (off w : Width) : Outcome (Net × Netlist) := do
  check (t.ValidNet i)
  let wd := t.getWidth i
  check (wd ≠ 0)
  check (0 < w)
  check (w + off ≤ wd)
  t.buildGate .extract w [i] [off]

/-- `Build_Extract_Bit`. -/
def buildExtractBit (t : Netlist) (i : Net) (off : Width) : Outcome (Net × Netlist) := t.buildSlice i off 1

/-- What is given of the values: the nets up to BASE have values, and the operators have meanings, for the
width of their results. -/
structure Given where
  base : Net
  val : Net → Nat
  monadic : Nat → Width → Nat → Nat
  dyadic : Nat → Width → Nat → Nat → Nat

/-- The value of a net, with a bound on the depth of the gates. -/
def value (t : Netlist) (g : Given) : Nat → Net → Option Nat
  | 0, _ => none
  | fuel + 1, n =>
    if n ≤ g.base then some (g.val n)
    else
      let inst := t.instances (t.nets n).parent
      let input : Nat → Option Nat := fun k => do
        let d ← t.getDriver (inst.firstInput + k)
        value t g fuel d
      match inst.klass with
      | .mux2 => do
        let s ← input 0
        input (s % 2 + 1)
      | .mux4 => do
        let s ← input 0
        input (s % 4 + 1)
      | .extract => do
        let v ← input 0
        return v / 2 ^ t.params inst.firstParam % 2 ^ t.getWidth n
      | .monadic id => do
        let a ← input 0
        return g.monadic id (t.getWidth n) a
      | .dyadic id => do
        let a ← input 0
        let b ← input 1
        return g.dyadic id (t.getWidth n) a b
      | .other _ => none

/-- The net has the value. -/
def Evaluates (t : Netlist) (g : Given) (n : Net) (v : Nat) : Prop :=
  ∃ fuel, t.value g fuel n = some v

/-- The tables of a netlist fit together. -/
structure Sound (t : Netlist) : Prop where
  threaded : ∃ cells, t.Threaded cells
  parents : ∀ n, t.ValidNet n → (t.nets n).parent ≤ t.lastInstance
  offsets : ∀ i ≤ t.lastInstance, (t.instances i).klass = .extract → (t.instances i).firstParam ≤ t.lastParam

/-- What is in the first netlist is in the second one. -/
structure Extends (t t' : Netlist) : Prop where
  lastNet : t.lastNet ≤ t'.lastNet
  parent : ∀ n, t.ValidNet n → (t'.nets n).parent = (t.nets n).parent
  width : ∀ n, t.ValidNet n → t'.getWidth n = t.getWidth n
  instances : ∀ i ≤ t.lastInstance, t'.instances i = t.instances i
  lastInstance : t.lastInstance ≤ t'.lastInstance
  driver : ∀ i d, t.getDriver i = some d → t'.getDriver i = some d
  params : ∀ p ≤ t.lastParam, t'.params p = t.params p
  lastParam : t.lastParam ≤ t'.lastParam

variable {t t' t'' : Netlist} {g : Given} {n : Net} {v fuel : Nat} {i : Input} {o : Net}
  {klass : ModuleId} {wd : Width} {inputs : List Net} {params : List Nat}

theorem Extends.refl (t : Netlist) : Extends t t :=
  ⟨Nat.le_refl _, fun _ _ => rfl, fun _ _ => rfl, fun _ _ => rfl, Nat.le_refl _, fun _ _ same => same,
    fun _ _ => rfl, Nat.le_refl _⟩

theorem Extends.valid (extension : Extends t t') (valid : t.ValidNet n) : t'.ValidNet n :=
  ⟨valid.1, Nat.le_trans valid.2 extension.lastNet⟩

theorem Extends.trans (first : Extends t t') (second : Extends t' t'') : Extends t t'' where
  lastNet := Nat.le_trans first.lastNet second.lastNet
  parent n valid := (second.parent n (first.valid valid)).trans (first.parent n valid)
  width n valid := (second.width n (first.valid valid)).trans (first.width n valid)
  instances i bound := (second.instances i (Nat.le_trans bound first.lastInstance)).trans (first.instances i bound)
  lastInstance := Nat.le_trans first.lastInstance second.lastInstance
  driver i d driven := second.driver i d (first.driver i d driven)
  params p bound := (second.params p (Nat.le_trans bound first.lastParam)).trans (first.params p bound)
  lastParam := Nat.le_trans first.lastParam second.lastParam

theorem value_input {input input' : Nat → Option Nat} (more : ∀ k v, input k = some v → input' k = some v)
    {next next' : Nat → Option Nat} (rest : ∀ s v, next s = some v → next' s = some v) {k : Nat}
    (result : (input k >>= next) = some v) : (input' k >>= next') = some v := by
  cases first : input k with
  | none =>
    rw [first] at result
    cases result
  | some s =>
    rw [first] at result
    rw [more k s first]
    exact rest s v result

theorem Extends.value (extension : Extends t t') (sound : t.Sound) {more : Nat} (deeper : fuel ≤ more)
    (valid : t.ValidNet n) (result : t.value g fuel n = some v) : t'.value g more n = some v := by
  induction fuel generalizing n v more with
  | zero => cases result
  | succ fuel ih =>
    obtain ⟨more, rfl⟩ := Nat.exists_eq_succ_of_ne_zero (Nat.ne_of_gt (Nat.lt_of_lt_of_le (Nat.succ_pos fuel) deeper))
    unfold Netlist.value at result ⊢
    by_cases given : n ≤ g.base
    · rw [if_pos given] at result ⊢
      exact result
    rw [if_neg given] at result ⊢
    have parent := extension.parent n valid
    have same := extension.instances _ (sound.parents n valid)
    rw [parent, same]
    generalize isInst : t.instances (t.nets n).parent = inst at result ⊢
    have inputs : ∀ k v, (t.getDriver (inst.firstInput + k) >>= t.value g fuel) = some v →
        (t'.getDriver (inst.firstInput + k) >>= t'.value g more) = some v := by
      intro k v reads
      cases driven : t.getDriver (inst.firstInput + k) with
      | none =>
        rw [driven] at reads
        cases reads
      | some d =>
        rw [driven] at reads
        rw [extension.driver _ d driven]
        obtain ⟨cells, threaded⟩ := sound.threaded
        exact ih (Nat.le_of_succ_le_succ deeper) (threaded.valid _ d driven).2 reads
    dsimp only at result ⊢
    cases isKlass : inst.klass with
    | mux2 =>
      rw [isKlass] at result
      exact value_input inputs (fun s => inputs (s % 2 + 1)) result
    | mux4 =>
      rw [isKlass] at result
      exact value_input inputs (fun s => inputs (s % 4 + 1)) result
    | extract =>
      rw [isKlass] at result
      have offset := sound.offsets _ (sound.parents n valid) (isInst ▸ isKlass)
      rw [isInst] at offset
      rw [extension.params _ offset, extension.width n valid]
      exact value_input inputs (fun s v rest => rest) result
    | monadic id =>
      rw [isKlass] at result
      rw [extension.width n valid]
      exact value_input inputs (fun a v rest => rest) result
    | dyadic id =>
      rw [isKlass] at result
      rw [extension.width n valid]
      exact value_input inputs (fun a v rest => value_input inputs (fun b v rest => rest) rest) result
    | other id =>
      rw [isKlass] at result
      cases result

theorem Evaluates.extends (evaluates : t.Evaluates g n v) (extension : Extends t t') (sound : t.Sound)
    (valid : t.ValidNet n) : t'.Evaluates g n v := by
  obtain ⟨fuel, result⟩ := evaluates
  exact ⟨fuel, extension.value sound (Nat.le_refl fuel) valid result⟩

/-- The netlist with the width of a net set. -/
def withWidth (t : Netlist) (o : Net) (w : Width) : Netlist :=
  { t with nets := update t.nets o { t.nets o with w } }

/-- The netlist with an input connected. -/
def connected (t : Netlist) (i : Input) (o : Net) : Netlist :=
  (t.setInput i { t.inputs i with driver := some o, nextSink := t.getFirstSink o }).setFirstSink o (some i)

theorem setWidth_eq (valid : t.ValidNet o) (unset : t.getWidth o = 0) : t.setWidth o wd = .ok (t.withWidth o wd) := by
  unfold setWidth check
  rw [if_pos valid, if_neg (not_not.mpr unset)]
  rfl

theorem connect_eq (input : t.ValidInput i) (net : t.ValidNet o) (free : t.getDriver i = none) :
    t.connect i o = .ok (t.connected i o) := by
  unfold connect check
  rw [if_pos input, if_pos net, if_pos free]
  rfl

@[simp] theorem withWidth_self : (t.withWidth o wd).getWidth o = wd := by
  simp [withWidth, getWidth]

theorem withWidth_other (other : n ≠ o) : (t.withWidth o wd).getWidth n = t.getWidth n := by
  simp [withWidth, getWidth, other]

@[simp] theorem withWidth_parent (n : Net) : ((t.withWidth o wd).nets n).parent = (t.nets n).parent := by
  by_cases same : n = o
  · subst same
    simp [withWidth]
  · simp [withWidth, same]

theorem withWidth_firstSink (n : Net) : (t.withWidth o wd).getFirstSink n = t.getFirstSink n := by
  by_cases same : n = o
  · subst same
    simp [withWidth, getFirstSink]
  · simp [withWidth, getFirstSink, same]

theorem Sound.withWidth (sound : t.Sound) (o : Net) (wd : Width) : (t.withWidth o wd).Sound := by
  obtain ⟨cells, threaded⟩ := sound.threaded
  exact
    { threaded := ⟨cells, threaded.family.congr_head withWidth_firstSink, threaded.driven, threaded.valid⟩
      parents := fun n inside => by
        rw [withWidth_parent]
        exact sound.parents n inside
      offsets := sound.offsets }

@[simp] theorem connected_driver_self : (t.connected i o).getDriver i = some o := by
  simp [connected, getDriver, setFirstSink, setInput]

theorem connected_driver_other {j : Input} (other : j ≠ i) : (t.connected i o).getDriver j = t.getDriver j := by
  simp [connected, getDriver, setFirstSink, setInput, other]

@[simp] theorem connected_width (n : Net) : (t.connected i o).getWidth n = t.getWidth n := by
  by_cases same : n = o
  · subst same
    simp [connected, getWidth, setFirstSink, setInput]
  · simp [connected, getWidth, setFirstSink, setInput, same]

@[simp] theorem connected_parent (n : Net) : ((t.connected i o).nets n).parent = (t.nets n).parent := by
  by_cases same : n = o
  · subst same
    simp [connected, setFirstSink, setInput]
  · simp [connected, setFirstSink, setInput, same]

theorem Sound.connected (sound : t.Sound) (input : t.ValidInput i) (net : t.ValidNet o)
    (free : t.getDriver i = none) : (t.connected i o).Sound := by
  obtain ⟨cells, threaded⟩ := sound.threaded
  obtain ⟨t', result, threaded', _⟩ := threaded.connect input net free
  rw [connect_eq input net free] at result
  exact
    { threaded := ⟨_, Except.ok.inj result ▸ threaded'⟩
      parents := fun n inside => by
        rw [connected_parent]
        exact sound.parents n inside
      offsets := sound.offsets }

/-- The nets are connected to the inputs from FIRST on, and nothing else changes. -/
structure Connects (t : Netlist) (first : Input) (os : List Net) (t' : Netlist) : Prop where
  sound : t'.Sound
  driver : ∀ k o, os[k]? = some o → t'.getDriver (first + k) = some o
  others : ∀ j, j < first → t'.getDriver j = t.getDriver j
  width : ∀ n, t'.getWidth n = t.getWidth n
  parent : ∀ n, (t'.nets n).parent = (t.nets n).parent
  lastNet : t'.lastNet = t.lastNet
  instances : t'.instances = t.instances
  lastInstance : t'.lastInstance = t.lastInstance
  params : t'.params = t.params
  lastParam : t'.lastParam = t.lastParam

theorem connectInputs_spec (first : Input) (os : List Net) (sound : t.Sound) (valid : ∀ o ∈ os, t.ValidNet o)
    (positive : 0 < first) (room : first + os.length ≤ t.lastInput + 1) (free : ∀ j, first ≤ j → t.getDriver j = none) :
    ∃ t', connectInputs first os t = .ok t' ∧ t.Connects first os t' := by
  induction os generalizing first t with
  | nil =>
    refine ⟨t, rfl, sound, fun k o inside => ?_, fun _ _ => rfl, fun _ => rfl, fun _ => rfl, rfl, rfl, rfl, rfl, rfl⟩
    rw [List.getElem?_nil] at inside
    cases inside
  | cons o os ih =>
    rw [List.length_cons] at room
    have input : t.ValidInput first :=
      ⟨positive, Nat.le_of_succ_le_succ (Nat.le_trans (Nat.add_le_add_left (Nat.le_add_left 1 _) first) room)⟩
    have net := valid o List.mem_cons_self
    have unused := free first (Nat.le_refl first)
    have rest := ih (first + 1) (sound.connected input net unused)
      (fun o' inside => valid o' (List.mem_cons_of_mem o inside)) (Nat.succ_pos first)
      (by
        rw [Nat.add_assoc, Nat.add_comm 1]
        exact room)
      (fun j beyond => by
        rw [connected_driver_other (Nat.ne_of_gt beyond)]
        exact free j (Nat.le_of_succ_le beyond))
    obtain ⟨t', result, connects⟩ := rest
    refine ⟨t', ?_, connects.sound, fun k o' inside => ?_, fun j before => ?_, fun n => ?_, fun n => ?_,
      connects.lastNet, connects.instances, connects.lastInstance, connects.params, connects.lastParam⟩
    · unfold connectInputs
      rw [connect_eq input net unused]
      exact result
    · cases k with
      | zero =>
        obtain rfl := Option.some.inj inside
        rw [Nat.add_zero, connects.others first (Nat.lt_succ_self first), connected_driver_self]
      | succ k =>
        rw [List.getElem?_cons_succ] at inside
        have driven := connects.driver k o' inside
        rwa [Nat.add_right_comm, Nat.add_assoc] at driven
    · rw [connects.others j (Nat.lt_succ_of_lt before), connected_driver_other (Nat.ne_of_lt before)]
    · rw [connects.width, connected_width]
    · rw [connects.parent, connected_parent]

/-- The last gate of a netlist has the output O. -/
structure Built (t : Netlist) (klass : ModuleId) (wd : Width) (inputs : List Net) (params : List Nat)
    (t' : Netlist) : Prop where
  sound : t'.Sound
  extends_ : Extends t t'
  lastNet : t'.lastNet = t.lastNet + 1
  width : t'.getWidth (t.lastNet + 1) = wd
  klass_ : (t'.instances (t'.nets (t.lastNet + 1)).parent).klass = klass
  input : ∀ k o, inputs[k]? = some o →
    t'.getDriver ((t'.instances (t'.nets (t.lastNet + 1)).parent).firstInput + k) = some o
  param : ∀ k v, params[k]? = some v →
    t'.params ((t'.instances (t'.nets (t.lastNet + 1)).parent).firstParam + k) = v

section NewInstance

variable {nbrInputs nbrParams : Nat}

theorem newInstance_input_old (old : i ≤ t.lastInput) :
    (t.newInstance klass nbrInputs [0] nbrParams).2.inputs i = t.inputs i := if_pos old

theorem newInstance_driver_new (new : t.lastInput < i) :
    (t.newInstance klass nbrInputs [0] nbrParams).2.getDriver i = none := by
  unfold getDriver newInstance
  simp [Nat.not_le.mpr new]

theorem newInstance_net_old (old : n ≤ t.lastNet) :
    (t.newInstance klass nbrInputs [0] nbrParams).2.nets n = t.nets n := if_pos old

theorem newInstance_net_new : (t.newInstance klass nbrInputs [0] nbrParams).2.nets (t.lastNet + 1) =
      { parent := t.lastInstance + 1, firstSink := none, w := 0 } := by
  have beyond : ¬t.lastNet + 1 ≤ t.lastNet := Nat.not_succ_le_self t.lastNet
  simp [newInstance, beyond]

theorem newInstance_instance_old {inst : Instance} (old : inst ≤ t.lastInstance) :
    (t.newInstance klass nbrInputs [0] nbrParams).2.instances inst = t.instances inst :=
  update_of_ne (Nat.ne_of_lt (Nat.lt_succ_of_le old)) _ _

theorem newInstance_instance_new : (t.newInstance klass nbrInputs [0] nbrParams).2.instances (t.lastInstance + 1) =
      { klass, firstParam := t.lastParam + 1, firstInput := t.lastInput + 1, firstOutput := t.lastNet + 1 } :=
  update_self _ _ _

theorem Sound.newInstance (sound : t.Sound) (nbrInputs : Nat) (offset : klass = .extract → 0 < nbrParams) :
    (t.newInstance klass nbrInputs [0] nbrParams).2.Sound where
  threaded := by
    obtain ⟨cells, threaded⟩ := sound.threaded
    exact ⟨cells, threaded.newInstance klass nbrInputs [0] nbrParams⟩
  parents n valid := by
    rcases Nat.lt_or_eq_of_le valid.2 with old | new
    · have old : n ≤ t.lastNet := Nat.le_of_lt_succ old
      rw [newInstance_net_old old]
      exact Nat.le_succ_of_le (sound.parents n ⟨valid.1, old⟩)
    · have new : n = t.lastNet + 1 := new
      rw [new, newInstance_net_new]
      exact Nat.le_refl (t.lastInstance + 1)
  offsets inst bound extracts := by
    rcases Nat.lt_or_eq_of_le bound with old | new
    · have old : inst ≤ t.lastInstance := Nat.le_of_lt_succ old
      rw [newInstance_instance_old old] at extracts ⊢
      exact Nat.le_add_right_of_le (sound.offsets inst old extracts)
    · have new : inst = t.lastInstance + 1 := new
      rw [new, newInstance_instance_new] at extracts ⊢
      exact Nat.add_le_add_left (offset extracts) t.lastParam

end NewInstance

theorem buildGate_spec (klass : ModuleId) (wd : Width) (params : List Nat) (sound : t.Sound) (valid : ∀ o ∈ inputs, t.ValidNet o)
    (offset : klass = .extract → 0 < params.length) :
    ∃ t', t.buildGate klass wd inputs params = .ok (t.lastNet + 1, t') ∧ t.Built klass wd inputs params t' := by
  have sound₁ := sound.newInstance inputs.length offset
  obtain ⟨t₁, isFirst⟩ : ∃ t₁, (t.newInstance klass inputs.length [0] params.length).2 = t₁ := ⟨_, rfl⟩
  rw [isFirst] at sound₁
  have lastNet : t₁.lastNet = t.lastNet + 1 := by rw [← isFirst]; rfl
  have lastInput : t₁.lastInput = t.lastInput + inputs.length := by rw [← isFirst]; rfl
  have new : t₁.ValidNet (t.lastNet + 1) := ⟨Nat.succ_pos _, Nat.le_of_eq lastNet.symm⟩
  have unset : t₁.getWidth (t.lastNet + 1) = 0 := by
    unfold getWidth
    rw [← isFirst, newInstance_net_new]
  obtain ⟨t₂, connected, connects⟩ := connectInputs_spec (t.lastInput + 1) inputs
    (sound₁.withWidth (t.lastNet + 1) wd)
    (fun o inside => ⟨(valid o inside).1, by
      show o ≤ t₁.lastNet
      rw [lastNet]
      exact Nat.le_succ_of_le (valid o inside).2⟩)
    (Nat.succ_pos _)
    (by
      have same : t.lastInput + 1 + inputs.length = t₁.lastInput + 1 := by
        rw [lastInput, Nat.add_right_comm]
      exact Nat.le_of_eq same)
    (fun j beyond => by
      show t₁.getDriver j = none
      rw [← isFirst]
      exact newInstance_driver_new beyond)
  let last : Netlist :=
    { t₂ with
      params := fun p => if t.lastParam + 1 ≤ p then (params[p - (t.lastParam + 1)]?).getD (t₂.params p) else t₂.params p }
  have instances : last.instances = t₁.instances := connects.instances
  have parent : ∀ n, (last.nets n).parent = (t₁.nets n).parent := fun n => (connects.parent n).trans (withWidth_parent n)
  have atNew : last.instances (last.nets (t.lastNet + 1)).parent =
      { klass, firstParam := t.lastParam + 1, firstInput := t.lastInput + 1, firstOutput := t.lastNet + 1 } := by
    rw [parent, instances, ← isFirst, newInstance_net_new]
    exact newInstance_instance_new
  refine ⟨last, ?_, ?_⟩
  · have made : t.newInstance klass inputs.length [0] params.length = (t.lastInstance + 1, t₁) := Prod.ext rfl isFirst
    have output : (t₁.instances (t.lastInstance + 1)).firstOutput = t.lastNet + 1 := by
      rw [← isFirst, newInstance_instance_new]
    have firstInput : (t₁.instances (t.lastInstance + 1)).firstInput = t.lastInput + 1 := by
      rw [← isFirst, newInstance_instance_new]
    have firstParam : (t₂.instances (t.lastInstance + 1)).firstParam = t.lastParam + 1 := by
      rw [connects.instances]
      show (t₁.instances (t.lastInstance + 1)).firstParam = t.lastParam + 1
      rw [← isFirst, newInstance_instance_new]
    unfold buildGate
    rw [made]
    show (t₁.setWidth (t₁.instances (t.lastInstance + 1)).firstOutput wd >>= _) = _
    rw [output, setWidth_eq new unset]
    show (connectInputs (t₁.instances (t.lastInstance + 1)).firstInput inputs _ >>= _) = _
    rw [firstInput, connected]
    show Except.ok (t.lastNet + 1, _) = Except.ok (t.lastNet + 1, last)
    rw [firstParam]
  · obtain ⟨cells, threaded⟩ := connects.sound.threaded
    exact
      { sound :=
          { threaded := ⟨cells, threaded.family, threaded.driven, threaded.valid⟩
            parents := connects.sound.parents
            offsets := connects.sound.offsets }
        extends_ :=
          { lastNet := Nat.le_trans (Nat.le_succ t.lastNet) (Nat.le_of_eq (connects.lastNet.trans lastNet).symm)
            parent := fun n valid => by
              rw [parent, ← isFirst, newInstance_net_old valid.2]
            width := fun n valid => by
              have other : n ≠ t.lastNet + 1 := Nat.ne_of_lt (Nat.lt_succ_of_le valid.2)
              show t₂.getWidth n = t.getWidth n
              rw [connects.width, withWidth_other other, ← isFirst]
              exact congrArg NetRecord.w (newInstance_net_old valid.2)
            instances := fun inst old => by
              rw [instances, ← isFirst, newInstance_instance_old old]
            lastInstance := by
              show t.lastInstance ≤ t₂.lastInstance
              rw [connects.lastInstance]
              show t.lastInstance ≤ t₁.lastInstance
              rw [← isFirst]
              exact Nat.le_succ t.lastInstance
            driver := fun i d driven => by
              obtain ⟨cells, threaded⟩ := sound.threaded
              have old := (threaded.valid i d driven).1.2
              show t₂.getDriver i = some d
              rw [connects.others i (Nat.lt_succ_of_le old)]
              show t₁.getDriver i = some d
              rw [← isFirst]
              exact (congrArg InputRecord.driver (newInstance_input_old old)).trans driven
            params := fun p old => by
              show (if t.lastParam + 1 ≤ p then _ else t₂.params p) = t.params p
              rw [if_neg (Nat.not_le.mpr (Nat.lt_succ_of_le old)), connects.params]
              show t₁.params p = t.params p
              rw [← isFirst]
              exact if_pos old
            lastParam := by
              show t.lastParam ≤ t₂.lastParam
              rw [connects.lastParam]
              show t.lastParam ≤ t₁.lastParam
              rw [← isFirst]
              exact Nat.le_add_right t.lastParam params.length }
        lastNet := connects.lastNet.trans lastNet
        width := (connects.width _).trans withWidth_self
        klass_ := by rw [atNew]
        input := fun k o inside => by
          rw [atNew]
          exact connects.driver k o inside
        param := fun k v inside => by
          rw [atNew]
          show (if t.lastParam + 1 ≤ t.lastParam + 1 + k then
            (params[t.lastParam + 1 + k - (t.lastParam + 1)]?).getD _ else _) = v
          rw [if_pos (Nat.le_add_right _ k), Nat.add_sub_cancel_left, inside]
          rfl }

theorem Evaluates.deep (evaluates : t.Evaluates g n v) (extension : Extends t t') (sound : t.Sound)
    (valid : t.ValidNet n) : ∃ fuel, ∀ more, fuel ≤ more → t'.value g more n = some v := by
  obtain ⟨fuel, result⟩ := evaluates
  exact ⟨fuel, fun more deeper => extension.value sound deeper valid result⟩

theorem evaluates_given (given : n ≤ g.base) : t.Evaluates g n (g.val n) := by
  refine ⟨1, ?_⟩
  unfold Netlist.value
  exact if_pos given

variable {s : Nat} {sel i0 i1 i2 i3 : Net}

theorem Built.reads (built : t.Built klass wd inputs params t') {k : Nat} (inside : inputs[k]? = some o)
    {fuel : Nat} (result : t'.value g fuel o = some v) :
    (do
      let d ← t'.getDriver ((t'.instances (t'.nets (t.lastNet + 1)).parent).firstInput + k)
      t'.value g fuel d : Option Nat) = some v := by
  rw [built.input k o inside]
  exact result

theorem Built.selects (built : t.Built klass wd inputs params t') (sound : t.Sound) (given : g.base ≤ t.lastNet)
    {m : Nat} (isMux : klass = .mux2 ∧ m = 2 ∨ klass = .mux4 ∧ m = 4) (validSel : t.ValidNet sel)
    (isSel : inputs[0]? = some sel) (selValue : t.Evaluates g sel s) (valid : t.ValidNet o)
    (chosen : inputs[s % m + 1]? = some o) (result : t.Evaluates g o v) : t'.Evaluates g (t.lastNet + 1) v := by
  have new : ¬t.lastNet + 1 ≤ g.base := Nat.not_le.mpr (Nat.lt_succ_of_le given)
  obtain ⟨depth, selector⟩ := selValue.deep built.extends_ sound validSel
  obtain ⟨depth', chosenValue⟩ := result.deep built.extends_ sound valid
  have first := built.reads isSel (selector _ (Nat.le_max_left depth depth'))
  have second := built.reads chosen (chosenValue _ (Nat.le_max_right depth depth'))
  refine ⟨max depth depth' + 1, ?_⟩
  unfold Netlist.value
  rw [if_neg new]
  dsimp only
  rw [built.klass_]
  rcases isMux with ⟨rfl, rfl⟩ | ⟨rfl, rfl⟩
  all_goals
    show (_ >>= _) = _
    rw [first]
    exact second

theorem Built.slices {off : Nat} (built : t.Built .extract wd [i0] [off] t') (sound : t.Sound)
    (given : g.base ≤ t.lastNet) (valid : t.ValidNet i0) (result : t.Evaluates g i0 v) :
    t'.Evaluates g (t.lastNet + 1) (v / 2 ^ off % 2 ^ wd) := by
  have new : ¬t.lastNet + 1 ≤ g.base := Nat.not_le.mpr (Nat.lt_succ_of_le given)
  obtain ⟨depth, whole⟩ := result.deep built.extends_ sound valid
  have first := built.reads (k := 0) rfl (whole depth (Nat.le_refl depth))
  refine ⟨depth + 1, ?_⟩
  unfold Netlist.value
  rw [if_neg new]
  dsimp only
  rw [built.klass_]
  show (_ >>= _) = _
  rw [first, built.width]
  have offset := built.param 0 off rfl
  rw [Nat.add_zero] at offset
  rw [offset]
  rfl

theorem Built.operates {id a : Nat} (built : t.Built (.monadic id) wd [i0] params t') (sound : t.Sound)
    (given : g.base ≤ t.lastNet) (valid : t.ValidNet i0) (result : t.Evaluates g i0 a) :
    t'.Evaluates g (t.lastNet + 1) (g.monadic id wd a) := by
  have new : ¬t.lastNet + 1 ≤ g.base := Nat.not_le.mpr (Nat.lt_succ_of_le given)
  obtain ⟨depth, whole⟩ := result.deep built.extends_ sound valid
  have first := built.reads (k := 0) rfl (whole depth (Nat.le_refl depth))
  refine ⟨depth + 1, ?_⟩
  unfold Netlist.value
  rw [if_neg new]
  dsimp only
  rw [built.klass_]
  show (_ >>= _) = _
  rw [first, built.width]
  rfl

theorem Built.operates₂ {id a b : Nat} (built : t.Built (.dyadic id) wd [i0, i1] params t') (sound : t.Sound)
    (given : g.base ≤ t.lastNet) (valid0 : t.ValidNet i0) (valid1 : t.ValidNet i1)
    (value0 : t.Evaluates g i0 a) (value1 : t.Evaluates g i1 b) :
    t'.Evaluates g (t.lastNet + 1) (g.dyadic id wd a b) := by
  have new : ¬t.lastNet + 1 ≤ g.base := Nat.not_le.mpr (Nat.lt_succ_of_le given)
  obtain ⟨depth, left⟩ := value0.deep built.extends_ sound valid0
  obtain ⟨depth', right⟩ := value1.deep built.extends_ sound valid1
  have first := built.reads (k := 0) rfl (left _ (Nat.le_max_left depth depth'))
  have second := built.reads (k := 1) rfl (right _ (Nat.le_max_right depth depth'))
  refine ⟨max depth depth' + 1, ?_⟩
  unfold Netlist.value
  rw [if_neg new]
  dsimp only
  rw [built.klass_]
  show (_ >>= _) = _
  rw [first, built.width]
  show (_ >>= _) = _
  rw [second]
  rfl

theorem buildMonadic_spec (id : Nat) (sound : t.Sound) (valid : t.ValidNet o) :
    ∃ t', t.buildMonadic id o = .ok (t.lastNet + 1, t') ∧ t.Built (.monadic id) (t.getWidth o) [o] [] t' := by
  have inside : ∀ i ∈ [o], t.ValidNet i := by
    simp [valid]
  obtain ⟨t', result, built⟩ :=
    buildGate_spec (.monadic id) (t.getWidth o) [] sound inside (fun extract => by cases extract)
  refine ⟨t', ?_, built⟩
  unfold buildMonadic
  rw [check_of valid]
  exact result

theorem buildDyadic_spec (id : Nat) (sound : t.Sound) (valid0 : t.ValidNet i0) (valid1 : t.ValidNet i1)
    (positive : t.getWidth i0 ≠ 0) (same : t.getWidth i1 = t.getWidth i0) :
    ∃ t', t.buildDyadic id i0 i1 = .ok (t.lastNet + 1, t') ∧ t.Built (.dyadic id) (t.getWidth i0) [i0, i1] [] t' := by
  have inside : ∀ i ∈ [i0, i1], t.ValidNet i := by
    simp [valid0, valid1]
  obtain ⟨t', result, built⟩ :=
    buildGate_spec (.dyadic id) (t.getWidth i0) [] sound inside (fun extract => by cases extract)
  refine ⟨t', ?_, built⟩
  unfold buildDyadic
  dsimp only
  rw [check_of valid0, check_of positive, check_of valid1, check_of same]
  exact result

theorem buildMux2_spec (sound : t.Sound) (validSel : t.ValidNet sel) (valid0 : t.ValidNet i0)
    (valid1 : t.ValidNet i1) (positive : t.getWidth i0 ≠ 0) (same : t.getWidth i1 = t.getWidth i0)
    (bit : t.getWidth sel = 1) : ∃ t', t.buildMux2 sel i0 i1 = .ok (t.lastNet + 1, t') ∧
      t.Built .mux2 (t.getWidth i0) [sel, i0, i1] [] t' := by
  have valid : ∀ o ∈ [sel, i0, i1], t.ValidNet o := by
    simp [validSel, valid0, valid1]
  obtain ⟨t', result, built⟩ := buildGate_spec .mux2 (t.getWidth i0) [] sound valid (fun h => by cases h)
  refine ⟨t', ?_, built⟩
  unfold buildMux2
  dsimp only
  rw [check_of valid0, check_of positive, check_of valid1, check_of same, check_of validSel, check_of bit]
  exact result

theorem buildMux4_spec (sound : t.Sound) (validSel : t.ValidNet sel) (valid0 : t.ValidNet i0)
    (valid1 : t.ValidNet i1) (valid2 : t.ValidNet i2) (valid3 : t.ValidNet i3) (positive : t.getWidth i0 ≠ 0)
    (same1 : t.getWidth i1 = t.getWidth i0) (same2 : t.getWidth i2 = t.getWidth i0)
    (same3 : t.getWidth i3 = t.getWidth i0) (bits : t.getWidth sel = 2) :
    ∃ t', t.buildMux4 sel i0 i1 i2 i3 = .ok (t.lastNet + 1, t') ∧
      t.Built .mux4 (t.getWidth i0) [sel, i0, i1, i2, i3] [] t' := by
  have valid : ∀ o ∈ [sel, i0, i1, i2, i3], t.ValidNet o := by
    simp [validSel, valid0, valid1, valid2, valid3]
  obtain ⟨t', result, built⟩ := buildGate_spec .mux4 (t.getWidth i0) [] sound valid (fun h => by cases h)
  refine ⟨t', ?_, built⟩
  unfold buildMux4
  dsimp only
  rw [check_of valid0, check_of positive, check_of valid1, check_of same1, check_of valid2, check_of same2,
    check_of valid3, check_of same3, check_of validSel, check_of bits]
  exact result

theorem buildSlice_spec {off w : Width} (sound : t.Sound) (valid : t.ValidNet o) (positive : 0 < w)
    (room : w + off ≤ t.getWidth o) :
    ∃ t', t.buildSlice o off w = .ok (t.lastNet + 1, t') ∧ t.Built .extract w [o] [off] t' := by
  have inside : ∀ i ∈ [o], t.ValidNet i := by
    simp [valid]
  have nonzero : t.getWidth o ≠ 0 :=
    Nat.ne_of_gt (Nat.lt_of_lt_of_le positive (Nat.le_trans (Nat.le_add_right w off) room))
  obtain ⟨t', result, built⟩ := buildGate_spec .extract w [off] sound inside (fun _ => Nat.one_pos)
  refine ⟨t', ?_, built⟩
  unfold buildSlice
  dsimp only
  rw [check_of valid, check_of nonzero, check_of positive, check_of room]
  exact result

end Netlist

end Ghdl.Synth
