import Ghdl.Grt.Propagation
import Ghdl.System.Fallible
import Mathlib.Data.List.Forall2

/-!
# What an update does to the signals

Every state that `Run_Propagation` reaches comes from edits of a few kinds: of values and flags, an event
that resumes processes, drivers that are updated, a transaction of an implicit signal, and an implicit
signal put on a chain. What each `Edit` keeps, running the cells of a net keeps.
-/

namespace Ghdl.Grt

open Fallible Relation

/-- The implicit signal with transactions that a cell computes. -/
def PropagationCell.attribute : PropagationCell → Option SignalId
  | impStable sig | impQuiet sig | impDelayed sig => some sig
  | _ => none

/-- A driver is updated. -/
def Driver.Updates (now : Int) (driver driver' : Driver) : Prop :=
  ∃ activity, driver.update now = .ok (activity, driver')

/-- A transaction list of an implicit signal holds transactions of the old one, and maybe one that is
projected to occur after the time of the attribute. -/
def AttrTrans.Schedules (now time : Int) (old trans : AttrTrans) : Prop :=
  ∀ t ∈ trans.pending, t.time = StdTime.add now time ∨ ∃ t' ∈ old.pending, t'.time = t.time

/-- An edit of the signals, by the cells of a net. -/
inductive Edit (design : Design) (now : Int) (cells : List PropagationCell) :
    SignalState → SignalState → Prop
  | values (state : SignalState) (values : SignalId → SignalValues) (clearList : List SignalId) :
      Edit design now cells state { state with values, clearList }
  | event (state : SignalState) (sig : SignalId) (values : SignalId → SignalValues) :
      Edit design now cells state
        { state with values, resumed := state.resumed ++ (state.eventList sig).map (·.proc) }
  | drivers (state : SignalState) (sig : SignalId) (drivers : List Driver)
      (updated : List.Forall₂ (fun d d' => d' = d ∨ d.Updates now d') (state.drivers sig) drivers) :
      Edit design now cells state (state.setDrivers sig drivers)
  | attr (state : SignalState) (sig : SignalId) (trans : AttrTrans)
      (scheduled : (state.attrTrans sig).Schedules now (design.decl sig).time trans) :
      Edit design now cells state (state.setAttrTrans sig trans)
  | active (state : SignalState) (sig : SignalId) (timeless : (design.decl sig).time = 0)
      (own : ∃ cell ∈ cells, cell.attribute = some sig) :
      Edit design now cells state (state.insertActive sig)
  | implicit (state : SignalState) (sig : SignalId) (forwarded : .impForward sig ∈ cells) :
      Edit design now cells state (state.insertImplicit sig)

/-- A sequence of edits. -/
abbrev Edits (design : Design) (now : Int) (cells : List PropagationCell) :
    SignalState → SignalState → Prop :=
  ReflTransGen (Edit design now cells)

section

variable {design : Design} {now : Int} {cells : List PropagationCell} {state state' : SignalState}

/-- An edit of values only. -/
theorem edits_values (state : SignalState) (values : SignalId → SignalValues) (clearList : List SignalId) :
    Edits design now cells state { state with values, clearList } :=
  .single (.values state values clearList)

theorem edits_foldl {α : Type*} {l : List α} {f : SignalState → α → SignalState}
    (each : ∀ state a, Edits design now cells state (f state a)) (state : SignalState) :
    Edits design now cells state (l.foldl f state) := by
  induction l generalizing state with
  | nil => exact .refl
  | cons a l ih => exact (each state a).trans (ih (f state a))

section

variable (state) (sig : SignalId)

theorem markActive_edits : Edits design now cells state (state.markActive now sig) := by
  unfold SignalState.markActive
  split
  · exact .refl
  · exact edits_values state _ _

theorem setDrivingValue_edits (val : ValueUnion) :
    Edits design now cells state (state.setDrivingValue sig val) := edits_values state _ _

theorem setActive_edits (active : Bool) :
    Edits design now cells state (state.setActive sig active) := edits_values state _ _

theorem setEffectiveValue_edits (val : ValueUnion) :
    Edits design now cells state (setEffectiveValue design now state sig val) := by
  unfold setEffectiveValue
  split
  · exact .refl
  · exact .single (.event state sig _)

theorem setEffectiveFromDriving_edits : Edits design now cells state (setEffectiveFromDriving design now state sig) :=
  setEffectiveValue_edits state sig _

end

theorem computeResolvedSignal_edits {resolv : Nat} (result : computeResolvedSignal design state resolv = .ok state') :
    Edits design now cells state state' := by
  simp only [computeResolvedSignal, bind_ok] at result
  obtain ⟨vec, -, -, -, result⟩ := result
  split at result
  · exact Except.ok.inj result ▸ .refl
  · obtain ⟨values, -, result⟩ := bind_ok.mp result
    exact Except.ok.inj result ▸ edits_foldl (fun state _ => setDrivingValue_edits state _ _) state

theorem setConversionActivity_edits (state : SignalState) (conv : Nat) :
    Edits design now cells state (setConversionActivity design state conv) := by
  refine ReflTransGen.trans ?_ (edits_foldl (fun state _ => setActive_edits state _ _) _)
  split
  · exact edits_foldl (fun state _ => edits_values state _ _) state
  · exact .refl

variable {active : Bool}

theorem updateDrivers_updates {drivers drivers' : List Driver}
    (result : updateDrivers now drivers = .ok (active, drivers')) :
    List.Forall₂ (Driver.Updates now) drivers drivers' := by
  induction drivers generalizing drivers' active with
  | nil =>
    simp only [updateDrivers, Except.ok.injEq, Prod.mk.injEq] at result
    exact result.2 ▸ .nil
  | cons driver drivers ih =>
    simp only [updateDrivers, bind_ok] at result
    obtain ⟨⟨activity, driver'⟩, first, ⟨others, rest⟩, later, result⟩ := result
    simp only [Except.ok.injEq, Prod.mk.injEq] at result
    exact result.2 ▸ .cons ⟨activity, first⟩ (ih later)

variable {sig : SignalId}

theorem edits_drivers {drivers : List Driver}
    (updated : List.Forall₂ (Driver.Updates now) (state.drivers sig) drivers) :
    Edits design now cells state (state.setDrivers sig drivers) :=
  .single (.drivers state sig drivers (updated.imp fun _ _ update => .inr update))

theorem getResolvedActivity_edits (result : getResolvedActivity design now state sig = .ok (active, state')) :
    Edits design now cells state state' := by
  simp only [getResolvedActivity, bind_ok] at result
  obtain ⟨⟨own, drivers⟩, updated, result⟩ := result
  simp only [Except.ok.injEq, Prod.mk.injEq] at result
  exact result.2 ▸ edits_drivers (updateDrivers_updates updated)

theorem resolvedActivity_edits {sigs : List SignalId}
    (result : resolvedActivity design now state sigs = .ok (active, state')) : Edits design now cells state state' := by
  induction sigs generalizing state active with
  | nil =>
    simp only [resolvedActivity, Except.ok.injEq, Prod.mk.injEq] at result
    exact result.2 ▸ .refl
  | cons sig sigs ih =>
    simp only [resolvedActivity, bind_ok] at result
    obtain ⟨⟨own, next⟩, first, ⟨others, final⟩, rest, result⟩ := result
    simp only [Except.ok.injEq, Prod.mk.injEq] at result
    obtain ⟨-, rfl⟩ := result
    exact (getResolvedActivity_edits first).trans (ih rest)

theorem runOneDriver_edits (result : runOneDriver now state sig = .ok state') :
    Edits design now cells state state' := by
  unfold runOneDriver at result
  split at result
  · simp at result
  · next driver drivers held =>
    obtain ⟨⟨activity, driver'⟩, updated, result⟩ := bind_ok.mp result
    have edit : Edits design now cells state (state.setDrivers sig (driver' :: drivers)) := by
      refine .single (.drivers state sig _ ?_)
      rw [held]
      exact .cons (.inr ⟨activity, updated⟩) (List.forall₂_same.mpr fun _ _ => .inl rfl)
    refine edit.trans ?_
    dsimp only at result
    split at result
    · exact Except.ok.inj result ▸ .refl
    · exact Except.ok.inj result ▸ (markActive_edits _ sig).trans (setDrivingValue_edits _ sig _)
    · exact Except.ok.inj result ▸ (markActive_edits _ sig).trans (setDrivingValue_edits _ sig _)
    all_goals simp at result

theorem runOneResolved_edits (result : runOneResolved design now state sig = .ok state') :
    Edits design now cells state state' := by
  obtain ⟨⟨active, next⟩, first, result⟩ := bind_ok.mp result
  refine (getResolvedActivity_edits first).trans ?_
  dsimp only at result
  split at result
  · split at result
    · simp at result
    · exact (markActive_edits _ sig).trans (computeResolvedSignal_edits result)
  · exact Except.ok.inj result ▸ .refl

theorem runOnePort_edits (result : runOnePort design now state sig = .ok state') :
    Edits design now cells state state' := by
  obtain ⟨port, -, result⟩ := bind_ok.mp result
  split at result
  · exact Except.ok.inj result ▸ (markActive_edits _ sig).trans (setDrivingValue_edits _ sig _)
  · exact Except.ok.inj result ▸ .refl

theorem runMultiple_edits {resolv : Nat} (result : runMultiple design now state resolv = .ok state') :
    Edits design now cells state state' := by
  obtain ⟨⟨active, next⟩, first, result⟩ := bind_ok.mp result
  refine (resolvedActivity_edits first).trans ?_
  dsimp only at result
  split at result
  · exact (edits_foldl (fun state sig => markActive_edits state sig) _).trans (computeResolvedSignal_edits result)
  · exact Except.ok.inj result ▸ .refl

theorem AttrTrans.consumeDue_schedules {trans trans' : AttrTrans} {time : Int}
    (due : trans.consumeDue now = some trans') : trans.Schedules now time trans' := by
  unfold consumeDue at due
  split at due
  · simp at due
  · next next pending held =>
    split at due
    · obtain rfl := Option.some.inj due
      exact fun t inside => .inr ⟨t, by rw [held]; exact List.mem_cons_of_mem next inside, rfl⟩
    · simp at due

section

variable (own : ∃ cell ∈ cells, cell.attribute = some sig)
include own

theorem insertActive_edits :
    Edits design now cells state (if (design.decl sig).time = 0 then state.addActiveChain sig else state) := by
  split
  · next timeless => exact .single (.active state sig timeless own)
  · exact .refl

theorem delayedImplicitProcess_edits
    (result : delayedImplicitProcess design now state sig = .ok state') : Edits design now cells state state' := by
  obtain ⟨pfx, -, result⟩ := bind_ok.mp result
  split at result
  · refine ReflTransGen.trans (.single (.attr state sig _ ?_)) (Except.ok.inj result ▸ insertActive_edits own)
    intro t inside
    split at inside
    · next last =>
      split at inside
      · exact .inr ⟨t, inside, rfl⟩
      · rcases List.mem_append.mp inside with old | new
        · exact .inr ⟨t, List.dropLast_subset _ old, rfl⟩
        · rw [List.mem_singleton] at new
          exact .inl (by rw [new]; exact last)
    · rcases List.mem_append.mp inside with old | new
      · exact .inr ⟨t, old, rfl⟩
      · rw [List.mem_singleton] at new
        exact .inl (by rw [new])
  · exact Except.ok.inj result ▸ .refl

theorem runStableQuiet_edits (active : Bool) :
    Edits design now cells state (runStableQuiet design now state sig active) := by
  have marked : Edits design now cells state
      (if active then state.markActive now sig else state) := by
    split
    · exact markActive_edits state sig
    · exact .refl
  refine marked.trans ?_
  rw [runStableQuiet]
  generalize (if active = true then state.markActive now sig else state) = state
  dsimp only
  split
  · refine ReflTransGen.trans ?_ (insertActive_edits own)
    refine ReflTransGen.trans ?_ (setEffectiveFromDriving_edits _ sig)
    refine (setDrivingValue_edits state sig _).trans (.single (.attr _ sig _ ?_))
    intro t inside
    rw [List.mem_singleton] at inside
    exact .inl (by rw [inside])
  · split
    · exact .refl
    · next trans due =>
      refine ReflTransGen.trans ?_ (setEffectiveFromDriving_edits _ sig)
      refine ReflTransGen.trans ?_ (setDrivingValue_edits _ sig _)
      have same : (state.markActive now sig).attrTrans = state.attrTrans := by
        unfold SignalState.markActive
        split <;> rfl
      refine (markActive_edits state sig).trans (.single (.attr _ sig trans ?_))
      rw [same]
      exact AttrTrans.consumeDue_schedules due

end

section

variable (state) (sig : SignalId)

theorem runGuard_edits : Edits design now cells state (runGuard design now state sig) := by
  have marked : Edits design now cells state
      (if anyPortActive design state sig then state.markActive now sig else state) := by
    split
    · exact markActive_edits state sig
    · exact .refl
  refine marked.trans ?_
  rw [runGuard]
  generalize (if anyPortActive design state sig = true then state.markActive now sig else state) = state
  dsimp only
  split
  · exact (setDrivingValue_edits state sig _).trans (setEffectiveFromDriving_edits _ sig)
  · exact .refl

theorem runTransaction_edits : Edits design now cells state (runTransaction design now state sig) := by
  unfold runTransaction
  split
  · exact (markActive_edits state sig).trans (setEffectiveValue_edits _ sig _)
  · exact .refl

theorem runEffective_edits : Edits design now cells state (runEffective design now state sig) := by
  unfold runEffective
  split
  · exact setEffectiveFromDriving_edits state sig
  · exact .refl

end

variable {cell : PropagationCell}

theorem runDriving_edits (inside : cell ∈ cells)
    (result : runDriving design now state cell = .ok state') : Edits design now cells state state' := by
  cases cell with
  | drvOneDriver sig | effOneDriver sig => exact runOneDriver_edits result
  | drvOneResolved sig | effOneResolved sig => exact runOneResolved_edits result
  | drvOnePort sig | effOnePort sig => exact runOnePort_edits result
  | drvMultiple resolv | effMultiple resolv => exact runMultiple_edits result
  | effActual sig =>
    simp only [runDriving] at result
    split at result
    · simp at result
    · split at result
      · exact Except.ok.inj result ▸ markActive_edits state sig
      · exact Except.ok.inj result ▸ .refl
  | impForward sig => exact Except.ok.inj result ▸ .single (.implicit state sig inside)
  | impDelayed sig =>
    simp only [runDriving] at result
    split at result
    · exact Except.ok.inj result ▸ .refl
    · next trans due =>
      rw [← Except.ok.inj result]
      have same : (state.markActive now sig).attrTrans = state.attrTrans := by
        unfold SignalState.markActive
        split <;> rfl
      refine ReflTransGen.trans ?_ (setDrivingValue_edits _ sig _)
      refine (markActive_edits state sig).trans (.single (.attr _ sig trans ?_))
      rw [same]
      exact AttrTrans.consumeDue_schedules due
  | outConversion conv => exact Except.ok.inj result ▸ setConversionActivity_edits state conv
  | drvError => simp [runDriving] at result
  | impGuard sig | impStable sig | impQuiet sig | impTransaction sig | impForwardBuild sig targ
    | inConversion conv | propEnd => exact Except.ok.inj result ▸ .refl

theorem runEffectiveValue_edits (inside : cell ∈ cells)
    (result : runEffectiveValue design now state cell = .ok state') : Edits design now cells state state' := by
  cases cell with
  | effOneDriver sig | effOnePort sig | effOneResolved sig =>
    exact Except.ok.inj result ▸ runEffective_edits state sig
  | effMultiple resolv =>
    rw [← Except.ok.inj result]
    split
    · exact edits_foldl (fun state sig => setEffectiveFromDriving_edits state sig) state
    · exact .refl
  | effActual sig =>
    simp only [runEffectiveValue] at result
    split at result
    · simp at result
    · split at result
      · exact Except.ok.inj result ▸ setEffectiveValue_edits state sig _
      · exact Except.ok.inj result ▸ .refl
  | impGuard sig => exact Except.ok.inj result ▸ runGuard_edits state sig
  | impStable sig | impQuiet sig =>
    exact Except.ok.inj result ▸ runStableQuiet_edits ⟨_, inside, rfl⟩ _
  | impTransaction sig => exact Except.ok.inj result ▸ runTransaction_edits state sig
  | impDelayed sig =>
    exact (runEffective_edits state sig).trans (delayedImplicitProcess_edits ⟨_, inside, rfl⟩ result)
  | inConversion conv => exact Except.ok.inj result ▸ setConversionActivity_edits state conv
  | drvError => simp [runEffectiveValue] at result
  | drvOneDriver sig | drvOnePort sig | drvOneResolved sig | drvMultiple resolv | impForward sig
    | impForwardBuild sig targ | outConversion conv | propEnd =>
    exact Except.ok.inj result ▸ .refl

theorem runCell_edits (inside : cell ∈ cells)
    (result : runCell design now state cell = .ok state') : Edits design now cells state state' := by
  obtain ⟨next, driving, effective⟩ := bind_ok.mp result
  exact (runDriving_edits inside driving).trans (runEffectiveValue_edits inside effective)

theorem runPropagation_edits {start : Nat} (result : runPropagation design now state start = .ok state') :
    Edits design now (design.cells start) state state' :=
  foldlM_invariant result .refl fun _ _ _ inside edits result =>
    edits.trans (runCell_edits inside result)

end

/-- What `Update_Signals` does besides the edits of the cells: to the links and flags of signals, and to the
only driver of a signal. -/
inductive Change (design : Design) (now : Int) : SignalState → SignalState → Prop
  | edit {cells : List PropagationCell} {state state' : SignalState}
      (edit : Edit design now cells state state') : Change design now state state'
  | links (state : SignalState) (link : SignalId → Option SignalPtr)
      (activeChain implicitChain : SignalPtr) :
      Change design now state { state with link, activeChain, implicitChain }
  | flags (state : SignalState) (directActive : SignalId → Bool) (updated : Nat → Bool)
      (forceValues : List ForceValue) :
      Change design now state { state with directActive, updated, forceValues }
  | driver (state : SignalState) (sig : SignalId) {driver driver' : Driver} {drivers : List Driver}
      (held : state.drivers sig = driver :: drivers)
      (consumed : (∃ kind, driver.consume = .ok (kind, driver')) ∨
        driver.assignFirst driver.valPtr = .ok driver') :
      Change design now state (state.setDrivers sig (driver' :: drivers))

/-- A sequence of changes. -/
abbrev Changes (design : Design) (now : Int) : SignalState → SignalState → Prop :=
  ReflTransGen (Change design now)

section

variable {design : Design} {now : Int} {state state' : SignalState}

theorem changes_edits {cells : List PropagationCell} (edits : Edits design now cells state state') :
    Changes design now state state' := by
  induction edits with
  | refl => exact .refl
  | tail _ edit ih => exact ih.tail (.edit edit)

theorem changes_links (state : SignalState) (link : SignalId → Option SignalPtr)
    (activeChain implicitChain : SignalPtr) :
    Changes design now state { state with link, activeChain, implicitChain } :=
  .single (.links state link activeChain implicitChain)

theorem changes_flags (state : SignalState) (directActive : SignalId → Bool) (updated : Nat → Bool)
    (forceValues : List ForceValue) : Changes design now state { state with directActive, updated, forceValues } :=
  .single (.flags state directActive updated forceValues)

section

variable (state) (sig : SignalId)

theorem insertActive_changes : Changes design now state (state.insertActive sig) := by
  unfold SignalState.insertActive
  split
  · exact changes_links state _ _ _
  · exact .refl

theorem markActive_changes : Changes design now state (state.markActive now sig) :=
  @changes_edits design now _ _ [] (markActive_edits state sig)

theorem setDrivingValue_changes (val : ValueUnion) : Changes design now state (state.setDrivingValue sig val) :=
  @changes_edits design now _ _ [] (setDrivingValue_edits state sig val)

theorem setEffectiveValue_changes (val : ValueUnion) :
    Changes design now state (setEffectiveValue design now state sig val) :=
  @changes_edits design now _ _ [] (setEffectiveValue_edits state sig val)

theorem clearDirectActive_changes : Changes design now state (state.clearDirectActive sig) :=
  changes_flags state _ state.updated state.forceValues

end

theorem updateForced_changes (forced : List ForceValue) :
    Changes design now state (updateForced design now state forced) := by
  induction forced generalizing state with
  | nil => exact changes_flags state state.directActive state.updated []
  | cons force forced ih =>
    refine ReflTransGen.trans ?_ ih
    refine (markActive_changes state force.sig).trans ?_
    split
    · exact (setDrivingValue_changes _ _ _).trans (setEffectiveValue_changes _ _ _)
    · exact setEffectiveValue_changes _ _ _

theorem updateNet_changes {sig : SignalId} {net : Nat} (result : updateNet design now state sig net = .ok state') :
    Changes design now state state' := by
  unfold updateNet at result
  split at result
  · exact Except.ok.inj result ▸ .refl
  · obtain ⟨next, ran, result⟩ := bind_ok.mp result
    refine (changes_flags state state.directActive (Function.update state.updated net true)
      state.forceValues).trans ?_
    exact (changes_edits (runPropagation_edits ran)).trans (Except.ok.inj result ▸ insertActive_changes next sig)

theorem updateSignal_changes {sig : SignalId} (result : updateSignal design now state sig = .ok state') :
    Changes design now state state' := by
  unfold updateSignal at result
  split at result
  · refine (markActive_changes state sig).trans ?_
    dsimp only at result
    split at result
    · simp at result
    · next driver drivers held =>
      obtain ⟨⟨kind, driver'⟩, consumed, result⟩ := bind_ok.mp result
      refine ReflTransGen.head (.driver _ sig held (.inl ⟨kind, consumed⟩)) ?_
      dsimp only at result
      split at result
      · exact Except.ok.inj result ▸ (setDrivingValue_changes _ _ _).trans (setEffectiveValue_changes _ _ _)
      all_goals simp at result
  · refine (markActive_changes state sig).trans ((clearDirectActive_changes _ sig).trans ?_)
    dsimp only at result
    split at result
    · simp at result
    · next driver drivers held =>
      obtain ⟨driver', assigned, result⟩ := bind_ok.mp result
      rw [← Except.ok.inj result]
      refine (setDrivingValue_changes _ sig driver.valPtr).trans ?_
      exact .head (.driver _ sig held (.inr assigned)) (setEffectiveValue_changes _ _ _)
  · refine (markActive_changes state sig).trans ((clearDirectActive_changes _ sig).trans ?_)
    obtain ⟨⟨active, drivers⟩, updated, result⟩ := bind_ok.mp result
    refine (@changes_edits design now _ _ [] (edits_drivers (updateDrivers_updates updated))).trans ?_
    dsimp only at result
    split at result
    · simp at result
    · obtain ⟨next, computed, result⟩ := bind_ok.mp result
      exact (@changes_edits design now _ _ [] (computeResolvedSignal_edits computed)).trans
        (Except.ok.inj result ▸ setEffectiveValue_changes _ _ _)
  · simp at result
  · exact (clearDirectActive_changes state sig).trans (updateNet_changes result)

variable {fuel : Nat}

theorem updateActive_changes {start : SignalPtr}
    (result : updateActive design now fuel state start = .ok state') : Changes design now state state' := by
  induction fuel generalizing state start with
  | zero =>
    cases start with
    | none => exact Except.ok.inj result ▸ .refl
    | some sig => simp [updateActive] at result
  | succ fuel ih =>
    cases start with
    | none => exact Except.ok.inj result ▸ .refl
    | some sig =>
      simp only [updateActive, bind_ok] at result
      obtain ⟨next, updated, result⟩ := result
      refine (changes_links state _ state.activeChain state.implicitChain).trans
        ((updateSignal_changes updated).trans ?_)
      split at result
      · simp at result
      · exact ih result

theorem updateImplicit_changes (result : updateImplicit design now fuel state = .ok state') :
    Changes design now state state' := by
  induction fuel generalizing state with
  | zero => simp [updateImplicit] at result
  | succ fuel ih =>
    unfold updateImplicit at result
    split at result
    · exact Except.ok.inj result ▸ .refl
    · split at result
      · exact Except.ok.inj result ▸ .refl
      · split at result
        · obtain ⟨next, ran, result⟩ := bind_ok.mp result
          exact (changes_links state _ _ _).trans ((updateNet_changes ran).trans (ih result))
        · simp at result

theorem unmarkSignal_changes (state : SignalState) (sig : SignalId) :
    Changes design now state (unmarkSignal design now state sig) := by
  have cleared : Changes design now state (state.clearUpdated design sig) := by
    unfold SignalState.clearUpdated
    split
    · exact changes_flags state state.directActive _ state.forceValues
    · exact .refl
  refine cleared.trans ?_
  unfold unmarkSignal
  generalize state.clearUpdated design sig = state
  refine (changes_links state (Function.update state.link sig none) state.activeChain state.implicitChain).trans ?_
  dsimp only
  split
  · exact changes_links _ _ state.activeChain _
  · exact .refl

theorem unmarkUpdated_changes {start : SignalPtr}
    (result : unmarkUpdated design now fuel state start = .ok state') : Changes design now state state' := by
  induction fuel generalizing state start with
  | zero =>
    cases start with
    | none => exact Except.ok.inj result ▸ .refl
    | some sig => simp [unmarkUpdated] at result
  | succ fuel ih =>
    cases start with
    | none => exact Except.ok.inj result ▸ .refl
    | some sig =>
      simp only [unmarkUpdated] at result
      split at result
      · exact Except.ok.inj result ▸ .refl
      · exact (unmarkSignal_changes state sig).trans (ih result)

/-- `Update_Signals` changes the signals. -/
theorem updateSignals_changes (result : updateSignals design now state = .ok state') :
    Changes design now state state' := by
  simp only [updateSignals, bind_ok] at result
  obtain ⟨active, first, implicit, second, result⟩ := result
  have reset : Changes design now state state.resetActiveFlag :=
    @changes_edits design now _ _ [] (edits_values state _ [])
  refine reset.trans ((updateForced_changes state.resetActiveFlag.forceValues).trans ?_)
  generalize updateForced design now state.resetActiveFlag state.resetActiveFlag.forceValues = state at first ⊢
  refine (changes_links state state.link none state.implicitChain).trans ?_
  refine (updateActive_changes first).trans ((updateImplicit_changes second).trans ?_)
  exact (changes_links implicit implicit.link none implicit.implicitChain).trans (unmarkUpdated_changes result)

end

end Ghdl.Grt
