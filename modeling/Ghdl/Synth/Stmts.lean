import Ghdl.Synth.Merging

/-!
# Sequential statements

Sequential programs of assignments to whole wires and nested ifs: their meaning, and their synthesis by
`Synth_If_Statement`. The last net of each wire has the value that the wire gets by executing the program, and
each context that is pushed is taken back by its pop.
-/

namespace Ghdl.Synth

open Env Function

/-- An expression: a net that is there before the program, the current value of a wire, or an operator. -/
inductive Expr where
  | net (n : Net)
  | wire (w : WireId)
  | monadic (id : Nat) (op : Expr)
  | dyadic (id : Nat) (l r : Expr)

/-- A sequential statement. An elsif is an if in the else part. -/
inductive Stmt where
  | null
  | seq (first second : Stmt)
  | assign (target : WireId) (val : Expr)
  | ifElse (cond : Expr) (thenPart elsePart : Stmt)

namespace Expr

/-- The net of an expression, built on the current values. -/
def synth : Expr → Env → Outcome (Net × Env)
  | .net n, e => .ok (n, e)
  | .wire w, e => do
    let n ← e.getCurrentValue w
    return (n, e)
  | .monadic id op, e => do
    let (n, e) ← op.synth e
    let (res, netlist) ← e.netlist.buildMonadic id n
    return (res, { e with netlist })
  | .dyadic id l r, e => do
    let (n, e) ← l.synth e
    let (n', e) ← r.synth e
    let (res, netlist) ← e.netlist.buildDyadic id n n'
    return (res, { e with netlist })

/-- The width of an expression, on the tables at the start. -/
def width (b : Env) : Expr → Width
  | .net n => b.netlist.getWidth n
  | .wire w => b.netlist.getWidth (b.wires w).gate
  | .monadic _ op => op.width b
  | .dyadic _ l _ => l.width b

/-- The nets and the wires of the expression are there, and the widths of the operands agree. -/
def Typed (b : Env) : Expr → Prop
  | .net n => b.netlist.ValidNet n ∧ b.netlist.getWidth n ≠ 0
  | .wire w => b.Declared w
  | .monadic _ op => op.Typed b
  | .dyadic _ l r => l.Typed b ∧ r.Typed b ∧ r.width b = l.width b

/-- The value of an expression: a variable has its current value, and another wire the value of its
initial net. -/
def eval (b : Env) (g : Netlist.Given) (current : WireId → Nat) : Expr → Nat
  | .net n => g.val n
  | .wire w => if (b.wires w).kind = .variable_ then current w else g.val (b.wires w).gate
  | .monadic id op => g.monadic id (op.width b) (op.eval b g current)
  | .dyadic id l r => g.dyadic id (l.width b) (l.eval b g current) (r.eval b g current)

end Expr

namespace Stmt

/-- `Synth_If_Statement` and the assignments. -/
def synth : Stmt → Env → Outcome Env
  | .null, e => .ok e
  | .seq first second, e => do
    let e ← first.synth e
    second.synth e
  | .assign target val, e => do
    let (n, e) ← val.synth e
    e.phiAssign target n
  | .ifElse cond thenPart elsePart, e => do
    let (sel, e) ← cond.synth e
    let e ← thenPart.synth e.pushPhi
    let (phiTrue, e) ← e.popPhi
    let e ← elsePart.synth e.pushPhi
    let (phiFalse, e) ← e.popPhi
    e.mergePhis sel phiTrue phiFalse

/-- The targets are wires that can be assigned, with values of their widths, and a condition is one bit. -/
def Typed (b : Env) : Stmt → Prop
  | .null => True
  | .seq first second => first.Typed b ∧ second.Typed b
  | .assign target val =>
    b.Assignable target ∧ val.Typed b ∧ val.width b = b.netlist.getWidth (b.wires target).gate
  | .ifElse cond thenPart elsePart =>
    cond.Typed b ∧ cond.width b = 1 ∧ thenPart.Typed b ∧ elsePart.Typed b

/-- The values that were last assigned to the wires by the execution of a statement. -/
def exec (b : Env) (g : Netlist.Given) : Stmt → (WireId → Nat) → WireId → Nat
  | .null, values => values
  | .seq first second, values => second.exec b g (first.exec b g values)
  | .assign target val, values => update values target (val.eval b g values)
  | .ifElse cond thenPart elsePart, values =>
    if cond.eval b g values % 2 = 0 then elsePart.exec b g values else thenPart.exec b g values

/-- The contexts of the synthesis of a statement: the tables before a `Push_Phi` and after the matching
`Pop_Phi`. -/
inductive PushesPops : Stmt → Env → Env → Env → Prop
  | first {s₁ s₂ : Stmt} {e before after : Env} (inside : PushesPops s₁ e before after) :
    PushesPops (.seq s₁ s₂) e before after
  | second {s₁ s₂ : Stmt} {e e₁ before after : Env} (run : s₁.synth e = .ok e₁)
    (inside : PushesPops s₂ e₁ before after) : PushesPops (.seq s₁ s₂) e before after
  | inThen {cond : Expr} {s₁ s₂ : Stmt} {e e₁ before after : Env} {sel : Net} (isCond : cond.synth e = .ok (sel, e₁))
    (inside : PushesPops s₁ e₁.pushPhi before after) : PushesPops (.ifElse cond s₁ s₂) e before after
  | thenPart {cond : Expr} {s₁ s₂ : Stmt} {e e₁ e₂ e₃ : Env} {sel : Net} {phi : PhiType}
    (isCond : cond.synth e = .ok (sel, e₁)) (run : s₁.synth e₁.pushPhi = .ok e₂) (pop : e₂.popPhi = .ok (phi, e₃)) :
    PushesPops (.ifElse cond s₁ s₂) e e₁ e₃
  | inElse {cond : Expr} {s₁ s₂ : Stmt} {e e₁ e₂ e₃ before after : Env} {sel : Net} {phi : PhiType}
    (isCond : cond.synth e = .ok (sel, e₁)) (run : s₁.synth e₁.pushPhi = .ok e₂) (pop : e₂.popPhi = .ok (phi, e₃))
    (inside : PushesPops s₂ e₃.pushPhi before after) : PushesPops (.ifElse cond s₁ s₂) e before after
  | elsePart {cond : Expr} {s₁ s₂ : Stmt} {e e₁ e₂ e₃ e₄ e₅ : Env} {sel : Net} {phi phi' : PhiType}
    (isCond : cond.synth e = .ok (sel, e₁)) (run : s₁.synth e₁.pushPhi = .ok e₂) (pop : e₂.popPhi = .ok (phi, e₃))
    (run' : s₂.synth e₃.pushPhi = .ok e₄) (pop' : e₄.popPhi = .ok (phi', e₅)) :
    PushesPops (.ifElse cond s₁ s₂) e e₃ e₅

end Stmt

/-- The tables are later than those at the start. -/
structure Since (b e : Env) : Prop where
  wires : SameWires b e
  extends_ : Netlist.Extends b.netlist e.netlist

/-- The last nets of the wires have the values. -/
def Holds (e : Env) (g : Netlist.Given) (values : WireId → Nat) : Prop :=
  ∀ w, e.Declared w → e.netlist.Evaluates g (e.last w) (values w)

variable {b e e₀ e' : Env} {g : Netlist.Given} {values : WireId → Nat} {l : List Assign} {netlist : Netlist}

theorem Since.withNetlist (since : Since b e) (extension : Netlist.Extends e.netlist netlist) :
    Since b { e with netlist } := ⟨since.wires, since.extends_.trans extension⟩

theorem Since.trans (since : Since b e) (later : Since e e') : Since b e' :=
  ⟨since.wires.trans later.wires, since.extends_.trans later.extends_⟩

theorem Holds.extends_ (holds : Holds e g values) (sound : e.Sound) (wires : SameWires e e')
    (lasts : ∀ w, e'.last w = e.last w) (extension : Netlist.Extends e.netlist e'.netlist) : Holds e' g values := by
  intro w declared
  have was := wires.declared.mp declared
  rw [lasts w]
  exact (holds w was).extends extension sound.netlist (sound.fits w was).1

theorem Expr.synth_spec (soundB : b.Sound) (isBase : g.base = b.netlist.lastNet) (x : Expr) (typed : x.Typed b)
    (sound : e.Sound) (since : Since b e) (holds : Holds e g values) :
    ∃ n netlist, x.synth e = .ok (n, { e with netlist }) ∧ netlist.Sound ∧ Netlist.Extends e.netlist netlist ∧
      netlist.ValidNet n ∧ netlist.getWidth n = x.width b ∧ x.width b ≠ 0 ∧
      netlist.Evaluates g n (x.eval b g values) := by
  induction x generalizing e with
  | net n =>
    refine ⟨n, e.netlist, rfl, sound.netlist, Netlist.Extends.refl _, since.extends_.valid typed.1,
      since.extends_.width n typed.1, typed.2, Netlist.evaluates_given ?_⟩
    rw [isBase]
    exact typed.1.2
  | wire w =>
    have gate := soundB.gates w typed
    have here : e.Declared w := since.wires.declared.mpr typed
    have isGate : (e.wires w).gate = (b.wires w).gate := (since.wires w).2
    have width : e.netlist.getWidth (e.wires w).gate = b.netlist.getWidth (b.wires w).gate := by
      rw [isGate, since.extends_.width _ gate.1]
    by_cases isVariable : (b.wires w).kind = .variable_
    · have read : e.getCurrentValue w = .ok (e.last w) := by
        unfold getCurrentValue last
        rw [(since.wires w).1, isVariable]
        cases (e.wires w).curAssign <;> rfl
      refine ⟨e.last w, e.netlist, ?_, sound.netlist, Netlist.Extends.refl _, (sound.fits w here).1,
        (sound.fits w here).2.trans width, gate.2, ?_⟩
      · unfold Expr.synth
        rw [read]
        rfl
      · unfold Expr.eval
        rw [if_pos isVariable]
        exact holds w here
    have read : e.getCurrentValue w = .ok (e.wires w).gate := by
      unfold getCurrentValue
      rw [(since.wires w).1]
      have there : (b.wires w).kind ≠ .none := typed
      cases isKind : (b.wires w).kind with
      | none => exact absurd isKind there
      | variable_ => exact absurd isKind isVariable
      | signal | input | output | inout => rfl
    refine ⟨(e.wires w).gate, e.netlist, ?_, sound.netlist, Netlist.Extends.refl _,
      isGate ▸ since.extends_.valid gate.1, width, gate.2, ?_⟩
    · unfold Expr.synth
      rw [read]
      rfl
    unfold Expr.eval
    rw [if_neg isVariable, isGate]
    refine Netlist.evaluates_given ?_
    rw [isBase]
    exact gate.1.2
  | monadic id op ih =>
    obtain ⟨n, netlist, run, built, extension, valid, width, positive, value⟩ := ih typed sound since holds
    obtain ⟨netlist', run', gate⟩ := Netlist.buildMonadic_spec id built valid
    have given : g.base ≤ netlist.lastNet := by
      rw [isBase]
      exact Nat.le_trans since.extends_.lastNet extension.lastNet
    refine ⟨netlist.lastNet + 1, netlist', ?_, gate.sound, extension.trans gate.extends_,
      ⟨Nat.succ_pos _, Nat.le_of_eq gate.lastNet.symm⟩, gate.width.trans width, positive, ?_⟩
    · unfold Expr.synth
      rw [run]
      show (netlist.buildMonadic id n >>= _) = _
      rw [run']
      rfl
    · have result := gate.operates built given valid value
      rw [width] at result
      exact result
  | dyadic id l r ihLeft ihRight =>
    obtain ⟨typedLeft, typedRight, same⟩ := typed
    obtain ⟨n, netlist, run, built, extension, valid, width, positive, value⟩ := ihLeft typedLeft sound since holds
    have sound' := sound.withNetlist extension built
    have since' := since.withNetlist extension
    have holds' : Holds { e with netlist } g values :=
      holds.extends_ sound (SameWires.refl e) (fun _ => rfl) extension
    obtain ⟨n', netlist', run', built', extension', valid', width', _, value'⟩ :=
      ihRight typedRight sound' since' holds'
    have validLeft := extension'.valid valid
    have widthLeft : netlist'.getWidth n = l.width b := (extension'.width n valid).trans width
    obtain ⟨netlist'', run'', gate⟩ := Netlist.buildDyadic_spec id built' validLeft valid'
      (widthLeft ▸ positive) (by rw [width', widthLeft, same])
    have given : g.base ≤ netlist'.lastNet := by
      rw [isBase]
      exact Nat.le_trans since.extends_.lastNet (Nat.le_trans extension.lastNet extension'.lastNet)
    refine ⟨netlist'.lastNet + 1, netlist'', ?_, gate.sound, (extension.trans extension').trans gate.extends_,
      ⟨Nat.succ_pos _, Nat.le_of_eq gate.lastNet.symm⟩, gate.width.trans widthLeft, positive, ?_⟩
    · unfold Expr.synth
      rw [run]
      show (r.synth { e with netlist } >>= _) = _
      rw [run']
      show (netlist'.buildDyadic id n n' >>= _) = _
      rw [run'']
      rfl
    · have result := gate.operates₂ built' given validLeft valid' (value.extends extension' built valid) value'
      rw [widthLeft] at result
      exact result

/-- The tables from which a statement is synthesized: a context L on sound tables, with the values of the wires. -/
structure Ready (b : Env) (g : Netlist.Given) (e₀ : Env) (l : List Assign) (e : Env) (values : WireId → Nat) :
    Prop where
  base : e₀.Sound
  level : Level e₀ l e
  sound : e.Sound
  since : Since b e
  holds : Holds e g values

variable {m : List Assign} {values' : WireId → Nat} {before after e₁ e₂ : Env}

section

variable (ready : Ready b g e₀ l e values)
include ready

theorem Ready.withNetlist (extension : Netlist.Extends e.netlist netlist)
    (built : netlist.Sound) : Ready b g e₀ l { e with netlist } values where
  base := ready.base
  level := ready.level.withNetlist extension
  sound := ready.sound.withNetlist extension built
  since := ready.since.withNetlist extension
  holds := ready.holds.extends_ ready.sound (SameWires.refl e) (fun _ => rfl) extension

theorem Ready.pushPhi : Ready b g e [] e.pushPhi values where
  base := ready.sound
  level := level_pushPhi e
  sound := ready.sound.pushPhi
  since := ⟨ready.since.wires, ready.since.extends_⟩
  holds := ready.holds

theorem Ready.restores (restores : Restores e e') : Ready b g e₀ l e' values where
  base := ready.base
  level := restores.level ready.level
  sound := restores.sound ready.sound
  since := ready.since.trans ⟨restores.sameWires, restores.extends_⟩
  holds := ready.holds.extends_ ready.sound restores.sameWires (restores.last ready.sound) restores.extends_

end

theorem Ready.popPhi (outer : Ready b g e₀ l e values) (inner : Ready b g e m e₁ values') :
    ∃ phi e₂, e₁.popPhi = .ok (phi, e₂) ∧ Restores e e₂ ∧
      ∀ e₃, Restores e₂ e₃ → Ended e₃ l m phi ∧ ∀ w v, e₃.Declared w → v = values' w →
        e₃.netlist.Evaluates g (e₃.branch m w) v := by
  obtain ⟨phi, e₂, pop, restores, length, chain, asgns, lastAssign, netlist⟩ := inner.level.popPhi inner.sound
  refine ⟨phi, e₂, pop, restores, fun e₃ later => ?_⟩
  obtain ⟨ended, branches⟩ :=
    outer.level.ended outer.sound inner.level inner.sound length chain asgns lastAssign netlist restores later
  refine ⟨ended, fun w v declared isV => ?_⟩
  have there : e₁.Declared w :=
    inner.level.wires.declared.mpr ((restores.sameWires.trans later.sameWires).declared.mp declared)
  have more : Netlist.Extends e₁.netlist e₃.netlist := netlist ▸ later.extends_
  rw [branches w, isV]
  exact (inner.holds w there).extends more inner.sound.netlist (inner.sound.fits w there).1

section

variable (soundB : b.Sound)
include soundB

section

variable (isBase : g.base = b.netlist.lastNet)
include isBase

theorem Ready.cond (ready : Ready b g e₀ l e values)
    {x : Expr} (typed : x.Typed b) (bit : x.width b = 1) :
    ∃ sel netlist, x.synth e = .ok (sel, { e with netlist }) ∧ Ready b g e₀ l { e with netlist } values ∧
      netlist.ValidNet sel ∧ netlist.getWidth sel = 1 ∧ netlist.Evaluates g sel (x.eval b g values) := by
  obtain ⟨sel, netlist, run, built, extension, valid, width, _, value⟩ :=
    x.synth_spec soundB isBase typed ready.sound ready.since ready.holds
  exact ⟨sel, netlist, run, ready.withNetlist extension built, valid, width.trans bit, value⟩

theorem Stmt.synth_spec (s : Stmt) (typed : s.Typed b)
    (ready : Ready b g e₀ l e values) : ∃ e' l', s.synth e = .ok e' ∧ Ready b g e₀ l' e' (s.exec b g values) := by
  induction s generalizing e₀ l e values with
  | null => exact ⟨e, l, rfl, ready⟩
  | seq first second ihFirst ihSecond =>
    obtain ⟨e₁, l₁, run₁, ready₁⟩ := ihFirst typed.1 ready
    obtain ⟨e₂, l₂, run₂, ready₂⟩ := ihSecond typed.2 ready₁
    refine ⟨e₂, l₂, ?_, ready₂⟩
    unfold Stmt.synth
    rw [run₁]
    exact run₂
  | assign target val =>
    obtain ⟨able, typedVal, same⟩ := typed
    obtain ⟨n, netlist, run, built, extension, valid, width, _, value⟩ :=
      val.synth_spec soundB isBase typedVal ready.sound ready.since ready.holds
    have ready₁ := ready.withNetlist extension built
    have gate := (soundB.gates target able.declared).1
    have fits : Env.Fits { e with netlist } target n := by
      refine ⟨valid, ?_⟩
      show netlist.getWidth n = netlist.getWidth (e.wires target).gate
      rw [width, same, (ready.since.wires target).2, (ready₁.since.extends_.width _ gate : netlist.getWidth _ = _)]
    obtain ⟨e', l', run', assigned⟩ :=
      ready₁.level.phiAssign ready.base ready₁.sound (ready.since.wires.assignable.mpr able) fits
    refine ⟨e', l', ?_, ?_⟩
    · unfold Stmt.synth
      rw [run]
      exact run'
    refine
      { base := ready.base
        level := assigned.level
        sound := assigned.sound
        since := ready₁.since.trans ⟨assigned.wires, assigned.netlist ▸ Netlist.Extends.refl _⟩
        holds := fun w declared => ?_ }
    rw [assigned.netlist]
    unfold Stmt.exec
    by_cases isTarget : w = target
    · subst isTarget
      rw [assigned.self, update_self]
      exact value
    · rw [assigned.others w isTarget, update_of_ne isTarget]
      exact ready₁.holds w (assigned.wires.declared.mp declared)
  | ifElse cond thenPart elsePart ihThen ihElse =>
    obtain ⟨typedCond, bit, typedThen, typedElse⟩ := typed
    obtain ⟨sel, netlist, runCond, ready₁, valid, width, value⟩ := ready.cond soundB isBase typedCond bit
    obtain ⟨e₂, lt, runThen, ready₂⟩ := ihThen typedThen ready₁.pushPhi
    obtain ⟨phiTrue, e₃, popThen, restores₃, endedThen⟩ := ready₁.popPhi ready₂
    have ready₃ := ready₁.restores restores₃
    obtain ⟨e₄, lf, runElse, ready₄⟩ := ihElse typedElse ready₃.pushPhi
    obtain ⟨phiFalse, e₅, popElse, restores₅, endedElse⟩ := ready₃.popPhi ready₄
    have ready₅ := ready₃.restores restores₅
    obtain ⟨endedTrue, valuesTrue⟩ := endedThen e₅ restores₅
    obtain ⟨endedFalse, valuesFalse⟩ := endedElse e₅ (Restores.refl ready₅.sound)
    have extension : Netlist.Extends netlist e₅.netlist := restores₃.extends_.trans restores₅.extends_
    have given : g.base ≤ e₅.netlist.lastNet := by
      rw [isBase]
      exact ready₅.since.extends_.lastNet
    -- The records of the else part are made after those of the then part.
    have newTrue : ∀ a ∈ lt, e.lastAssign < a := fun a inside => (ready₂.level.fresh a inside).1
    have newFalse : ∀ a ∈ lf, e₃.lastAssign < a := fun a inside => (ready₄.level.fresh a inside).1
    have beforeElse : ∀ a ∈ lt, a ≤ e₃.lastAssign := fun a inside =>
      (endedThen e₃ (Restores.refl ready₃.sound)).1.le a inside
    have disjoint : ∀ a ∈ lf, a ∉ lt := fun a inElse inThen =>
      Nat.not_le_of_lt (newFalse a inElse) (beforeElse a inThen)
    have later : e₀.lastAssign ≤ e.lastAssign := ready.level.later
    have merge := mergePhis_spec ready₅.level ready.base ready₅.sound endedTrue endedFalse disjoint
      (fun a inside => Nat.lt_of_le_of_lt later (newTrue a inside))
      (fun a inside => Nat.lt_of_le_of_lt (Nat.le_trans later restores₃.later) (newFalse a inside))
      (extension.valid valid) ((extension.width sel valid).trans width)
      (value.extends extension ready₁.sound.netlist valid) given
    obtain ⟨e', l', run, merged⟩ := merge
    refine ⟨e', l', ?_, ?_⟩
    · unfold Stmt.synth
      rw [runCond]
      show (thenPart.synth (Env.pushPhi { e with netlist }) >>= _) = _
      rw [runThen]
      show (e₂.popPhi >>= _) = _
      rw [popThen]
      show (elsePart.synth e₃.pushPhi >>= _) = _
      rw [runElse]
      show (e₄.popPhi >>= _) = _
      rw [popElse]
      exact run
    · refine
        { base := ready.base
          level := merged.level
          sound := merged.sound
          since := ready₅.since.trans ⟨merged.wires, merged.extends_⟩
          holds := fun w declared => ?_ }
      have there := merged.wires.declared.mp declared
      refine merged.value w _ there ?_
      unfold Stmt.exec
      by_cases zero : cond.eval b g values % 2 = 0
      · rw [if_pos zero, if_pos zero]
        exact valuesFalse w _ there rfl
      · rw [if_neg zero, if_neg zero]
        exact valuesTrue w _ there rfl

theorem Ready.of_cond (ready : Ready b g e₀ l e values)
    {x : Expr} (typed : x.Typed b) (bit : x.width b = 1) {sel : Net} {e' : Env} (isCond : x.synth e = .ok (sel, e')) :
    Ready b g e₀ l e' values := by
  obtain ⟨sel, netlist, run, ready', _⟩ := ready.cond soundB isBase typed bit
  obtain ⟨rfl, rfl⟩ := Prod.mk.inj (Except.ok.inj (run.symm.trans isCond))
  exact ready'

/-- A part of an if statement whose assignments have been popped. -/
theorem Ready.of_popped (ready : Ready b g e₀ l e values)
    {s : Stmt} (typed : s.Typed b) {e₁ e₂ : Env} {phi : PhiType} (run : s.synth e.pushPhi = .ok e₁)
    (pop : e₁.popPhi = .ok (phi, e₂)) : Restores e e₂ := by
  obtain ⟨e', m, run', ready'⟩ := s.synth_spec soundB isBase typed ready.pushPhi
  obtain rfl := Except.ok.inj (run'.symm.trans run)
  obtain ⟨phi', e₃, pop', restores, _⟩ := ready.popPhi ready'
  obtain ⟨rfl, rfl⟩ := Prod.mk.inj (Except.ok.inj (pop'.symm.trans pop))
  exact restores

theorem Stmt.PushesPops.restores {s : Stmt}
    (typed : s.Typed b) (ready : Ready b g e₀ l e values) (context : s.PushesPops e before after) :
    ∀ w, after.wires w = before.wires w := by
  induction context generalizing e₀ l values with
  | first inside ih => exact ih typed.1 ready
  | second run inside ih =>
    obtain ⟨e₁, l₁, run₁, ready₁⟩ := Stmt.synth_spec soundB isBase _ typed.1 ready
    obtain rfl := Except.ok.inj (run₁.symm.trans run)
    exact ih typed.2 ready₁
  | inThen isCond inside ih =>
    obtain ⟨typedCond, bit, typedThen, _⟩ := typed
    exact ih typedThen (ready.of_cond soundB isBase typedCond bit isCond).pushPhi
  | thenPart isCond run pop =>
    obtain ⟨typedCond, bit, typedThen, _⟩ := typed
    have ready₁ := ready.of_cond soundB isBase typedCond bit isCond
    exact (ready₁.of_popped soundB isBase typedThen run pop).wires
  | inElse isCond run pop inside ih =>
    obtain ⟨typedCond, bit, typedThen, typedElse⟩ := typed
    have ready₁ := ready.of_cond soundB isBase typedCond bit isCond
    exact ih typedElse (ready₁.restores (ready₁.of_popped soundB isBase typedThen run pop)).pushPhi
  | elsePart isCond run pop run' pop' =>
    obtain ⟨typedCond, bit, typedThen, typedElse⟩ := typed
    have ready₁ := ready.of_cond soundB isBase typedCond bit isCond
    have ready₃ := ready₁.restores (ready₁.of_popped soundB isBase typedThen run pop)
    exact (ready₃.of_popped soundB isBase typedElse run' pop').wires

end

end

/-- The synthesis of a sequential program in a context: the last net of each wire has the value that the
execution of the program gives the wire, and each pop, the last one included, takes the assignments of its
context back. -/
theorem Stmt.synth_correct (b : Env) (sound : b.Sound) (g : Netlist.Given) (isBase : g.base = b.netlist.lastNet)
    (s : Stmt) (typed : s.Typed b) : ∃ e', s.synth b.pushPhi = .ok e' ∧
      (∀ w, b.Declared w → ∃ n, e'.getLastAssignedValue w = .ok n ∧
        e'.netlist.Evaluates g n (s.exec b g (fun w => g.val (b.last w)) w)) ∧
      (∀ before after, s.PushesPops b.pushPhi before after →
        ∀ w, (after.wires w).curAssign = (before.wires w).curAssign) ∧
      ∃ phi e'', e'.popPhi = .ok (phi, e'') ∧ ∀ w, (e''.wires w).curAssign = (b.wires w).curAssign := by
  have start : Ready b g b [] b.pushPhi fun w => g.val (b.last w) :=
    { base := sound
      level := level_pushPhi b
      sound := sound.pushPhi
      since := ⟨SameWires.refl b, Netlist.Extends.refl _⟩
      holds := fun w declared => Netlist.evaluates_given (isBase ▸ (sound.fits w declared).1.2) }
  obtain ⟨e', l', run, ready⟩ := s.synth_spec sound isBase typed start
  refine ⟨e', run, fun w declared => ?_, fun before after context w => ?_, ?_⟩
  · have there := ready.since.wires.declared.mpr declared
    exact ⟨e'.last w, getLastAssignedValue_last ready.sound w, ready.holds w there⟩
  · rw [Stmt.PushesPops.restores sound isBase typed start context w]
  · obtain ⟨phi, e'', pop, restores, _⟩ := ready.level.popPhi ready.sound
    exact ⟨phi, e'', pop, fun w => by rw [restores.wires w]⟩

/-- Three nets of one bit, and a variable whose initial net is the second one. -/
def oneVariable : Env where
  netlist := (Netlist.empty.newInstance (.other 1) 0 [1, 1, 1] 0).2
  wires w := if w = 1 then { kind := .variable_, gate := 2, curAssign := none }
    else { kind := .none, gate := 0, curAssign := none }
  asgns _ := { id := 0, prev := none, phi := 0, chain := none, value := 0 }
  lastAssign := 0
  phis := [{ first := none, nbr := 0 }]

theorem oneVariable_declared {w : WireId} (declared : oneVariable.Declared w) : w = 1 := by
  by_cases one : w = 1
  · exact one
  · refine absurd ?_ declared
    show (if w = 1 then _ else _ : WireIdRecord).kind = _
    rw [if_neg one]

theorem oneVariable_sound : oneVariable.Sound where
  netlist :=
    { threaded := ⟨_, Netlist.empty_threaded.newInstance (.other 1) 0 [1, 1, 1] 0⟩
      parents := fun n valid => by
        show (if n ≤ 0 then _ else _ : NetRecord).parent ≤ 1
        rw [if_neg (Nat.not_le.mpr valid.1)]
        exact Nat.le_refl 1
      offsets := fun i bound extracts => by
        have cases : i = 0 ∨ i = 1 := Nat.le_one_iff_eq_zero_or_eq_one.mp bound
        rcases cases with rfl | rfl <;> cases extracts }
  levels := List.cons_ne_nil _ _
  cur w a cur := by
    by_cases one : w = 1 <;> simp [oneVariable, one] at cur
  assigned w a cur := by
    by_cases one : w = 1 <;> simp [oneVariable, one] at cur
  gates w declared := by
    obtain rfl := oneVariable_declared declared
    decide
  fits w declared := by
    obtain rfl := oneVariable_declared declared
    unfold Fits
    decide

/-- With a false condition and a variable that is zero, the else part complements the variable. -/
theorem synth_correct_elsif : ∃ e' n, Stmt.synth (.ifElse (.net 1) (.assign 1 (.net 3))
        (.ifElse (.wire 1) .null (.assign 1 (.monadic 0 (.wire 1))))) oneVariable.pushPhi = .ok e' ∧
      e'.getLastAssignedValue 1 = .ok n ∧ e'.netlist.Evaluates
        { base := 3, val := fun _ => 0, monadic := fun _ _ a => 1 - a, dyadic := fun _ _ a _ => a } n 1 := by
  obtain ⟨e', run, values, _⟩ := Stmt.synth_correct oneVariable oneVariable_sound
    { base := 3, val := fun _ => 0, monadic := fun _ _ a => 1 - a, dyadic := fun _ _ a _ => a } rfl
    (.ifElse (.net 1) (.assign 1 (.net 3)) (.ifElse (.wire 1) .null (.assign 1 (.monadic 0 (.wire 1)))))
    (by simp only [Stmt.Typed, Expr.Typed, Expr.width, Assignable, Declared]; decide)
  obtain ⟨n, last, value⟩ := values 1 (by unfold Declared; decide)
  exact ⟨e', n, run, last, value⟩

end Ghdl.Synth
