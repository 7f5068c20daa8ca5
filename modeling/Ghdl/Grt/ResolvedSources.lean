import Ghdl.Grt.Signals
import Ghdl.System.Fallible
import Mathlib

/-!
# The sources of a composite resolved signal

During elaboration each process registers its drivers and each association its source. A resolution
function is called with the I-th sources of all scalar subelements as one composite value.
`Check_Resolved_Driver` compares how many drivers the subelements have, and not whose they are.
-/

namespace Ghdl.Grt

open Fallible

/-- A call of elaboration that gives a signal a source. -/
inductive SourceDecl where
  /-- `Ghdl_Signal_Add_Driver`, in the current process. -/
  | driver (proc : ProcId) (sign : SignalId)
  /-- `Ghdl_Signal_Add_Source`. -/
  | source (targ src : SignalId)
  deriving DecidableEq, Repr

/-- The sources of each signal. -/
structure Sources where
  /-- `S.Drivers (I).Proc`. -/
  drivers : SignalId → List ProcId
  /-- `Ports`. -/
  ports : SignalId → List SignalId

namespace Sources

/-- No signal has a source when it is created. -/
def start : Sources := ⟨fun _ => [], fun _ => []⟩

/-- `Check_New_Source`. -/
def checkNewSource (resolved : SignalId → Bool) (sources : Sources) (sig : SignalId) :
    Except GrtError Unit :=
  if 0 < (sources.drivers sig).length + (sources.ports sig).length ∧ resolved sig = false then
    .error (.error "several sources for unresolved signal")
  else .ok ()

/-- `Ghdl_Signal_Add_Driver`: a process does not create a driver twice. -/
def addDriver (resolved : SignalId → Bool) (sources : Sources) (proc : ProcId) (sign : SignalId) :
    Except GrtError Sources :=
  if proc ∈ sources.drivers sign then .ok sources
  else do
    checkNewSource resolved sources sign
    .ok { sources with drivers := Function.update sources.drivers sign (sources.drivers sign ++ [proc]) }

/-- `Ghdl_Signal_Add_Source`. -/
def addSource (resolved : SignalId → Bool) (sources : Sources) (targ src : SignalId) :
    Except GrtError Sources := do
  checkNewSource resolved sources targ
  .ok { sources with ports := Function.update sources.ports targ (sources.ports targ ++ [src]) }

/-- A call of elaboration. -/
def declare (resolved : SignalId → Bool) (sources : Sources) : SourceDecl → Except GrtError Sources
  | .driver proc sign => addDriver resolved sources proc sign
  | .source targ src => addSource resolved sources targ src

/-- The sources after the calls of elaboration. -/
def elaborate (resolved : SignalId → Bool) (decls : List SourceDecl) : Except GrtError Sources :=
  decls.foldlM (declare resolved) start

/-- `Check_Resolved_Driver`. -/
def checkResolvedDriver (sources : Sources) (resolv : ResolvedSignal) : Except GrtError Unit :=
  let nbr := (sources.drivers resolv.sigRange.first).length
  (resolv.sigRange.toList.drop 1).forM fun sig =>
    if (sources.drivers sig).length ≠ nbr then
      .error (.error "missing drivers for subelement of a resolved signal")
    else .ok ()

end Sources

/-- The process of a call that adds a driver to a signal. -/
def SourceDecl.driverOf (sig : SignalId) : SourceDecl → Option ProcId
  | .driver proc sign => if sign = sig then some proc else none
  | .source _ _ => none

/-- The source of a call that adds one to a signal. -/
def SourceDecl.sourceOf (sig : SignalId) : SourceDecl → Option SignalId
  | .driver _ _ => none
  | .source targ src => if targ = sig then some src else none

/-- The processes that drive a signal. -/
def drivingProcesses (decls : List SourceDecl) (sig : SignalId) : List ProcId :=
  (decls.filterMap (·.driverOf sig)).dedup

/-- The sources of a signal that are not drivers. -/
def sourcePorts (decls : List SourceDecl) (sig : SignalId) : List SignalId :=
  decls.filterMap (·.sourceOf sig)

/-- All subelements are driven by the same processes, and by subelements of the same ports. -/
def SameSources {Port : Type*} (port : SignalId → Port) (decls : List SourceDecl) (range : SigTableRange) :
    Prop :=
  ∀ i ∈ range.toList, ∀ j ∈ range.toList,
    (∀ proc, proc ∈ drivingProcesses decls i ↔ proc ∈ drivingProcesses decls j) ∧
      ∀ p, (∃ src ∈ sourcePorts decls i, port src = p) ↔ ∃ src ∈ sourcePorts decls j, port src = p

/-- All subelements are driven by as many processes. -/
def SameCounts (decls : List SourceDecl) (range : SigTableRange) : Prop :=
  ∀ i ∈ range.toList, ∀ j ∈ range.toList,
    (drivingProcesses decls i).length = (drivingProcesses decls j).length

namespace Sources

variable {resolved : SignalId → Bool} {decls : List SourceDecl}

/-- The sources are those of the calls of elaboration. -/
structure Follows (decls : List SourceDecl) (sources : Sources) : Prop where
  nodup : ∀ sig, (sources.drivers sig).Nodup
  drivers : ∀ sig proc, proc ∈ sources.drivers sig ↔ .driver proc sig ∈ decls
  ports : ∀ sig, sources.ports sig = sourcePorts decls sig

variable {sources : Sources}

theorem addDriver_follows {next : Sources} {proc : ProcId} {sign : SignalId}
    (follows : Follows decls sources) (added : sources.addDriver resolved proc sign = .ok next) :
    Follows (decls ++ [.driver proc sign]) next := by
  have ports : ∀ sig, sourcePorts (decls ++ [.driver proc sign]) sig = sourcePorts decls sig := fun sig => by
    unfold sourcePorts
    rw [List.filterMap_append]
    exact List.append_nil _
  unfold addDriver at added
  by_cases present : proc ∈ sources.drivers sign
  · rw [if_pos present, Except.ok.injEq] at added
    subst added
    refine ⟨follows.nodup, fun sig other => ?_, fun sig => (follows.ports sig).trans (ports sig).symm⟩
    rw [follows.drivers, List.mem_append, List.mem_singleton]
    refine ⟨Or.inl, fun inside => inside.elim id fun same => ?_⟩
    obtain ⟨rfl, rfl⟩ := SourceDecl.driver.inj same
    exact (follows.drivers _ _).mp present
  rw [if_neg present, bind_ok] at added
  obtain ⟨-, -, updated⟩ := added
  cases updated
  refine ⟨fun sig => ?_, fun sig other => ?_, fun sig => (follows.ports sig).trans (ports sig).symm⟩
  · dsimp only
    by_cases same : sig = sign
    · subst same
      rw [Function.update_self]
      exact List.nodup_append_comm.mpr (List.nodup_cons.mpr ⟨present, follows.nodup sig⟩)
    · rw [Function.update_of_ne same]
      exact follows.nodup sig
  · rw [List.mem_append, List.mem_singleton, ← follows.drivers]
    dsimp only
    by_cases same : sig = sign
    · subst same
      rw [Function.update_self, List.mem_append, List.mem_singleton]
      simp
    · rw [Function.update_of_ne same]
      simp [same]

theorem addSource_follows {next : Sources} {targ src : SignalId} (follows : Follows decls sources)
    (added : sources.addSource resolved targ src = .ok next) : Follows (decls ++ [.source targ src]) next := by
  unfold addSource at added
  rw [bind_ok] at added
  obtain ⟨-, -, updated⟩ := added
  cases updated
  refine ⟨follows.nodup, fun sig proc => ?_, fun sig => ?_⟩
  · rw [follows.drivers, List.mem_append]
    simp
  unfold sourcePorts
  rw [List.filterMap_append]
  dsimp only
  by_cases same : sig = targ
  · subst same
    rw [Function.update_self, follows.ports]
    simp [sourcePorts, SourceDecl.sourceOf]
  · rw [Function.update_of_ne same, follows.ports]
    simp [sourcePorts, SourceDecl.sourceOf, Ne.symm same]

/-- Whatever the order of the calls, the sources are theirs. -/
theorem elaborate_follows (elaborated : elaborate resolved decls = .ok sources) : Follows decls sources := by
  unfold elaborate at elaborated
  induction decls using List.reverseRecOn generalizing sources with
  | nil =>
    cases elaborated
    exact ⟨fun _ => List.nodup_nil, fun _ _ => by simp [start], fun _ => rfl⟩
  | append_singleton decls decl ih =>
    rw [List.foldlM_append, bind_ok] at elaborated
    obtain ⟨before, elaboratedBefore, last⟩ := elaborated
    rw [List.foldlM_cons, bind_ok] at last
    obtain ⟨next, declared, same⟩ := last
    cases same
    cases decl with
    | driver proc sign => exact addDriver_follows (ih elaboratedBefore) declared
    | source targ src => exact addSource_follows (ih elaboratedBefore) declared

theorem mem_drivingProcesses {sig : SignalId} {proc : ProcId} :
    proc ∈ drivingProcesses decls sig ↔ .driver proc sig ∈ decls := by
  unfold drivingProcesses
  rw [List.mem_dedup, List.mem_filterMap]
  constructor
  · rintro ⟨decl, inside, is⟩
    cases decl with
    | driver other sign =>
      change (if sign = sig then some other else none) = some proc at is
      by_cases same : sign = sig
      · rw [if_pos same, Option.some.injEq] at is
        rwa [← is, ← same]
      · rw [if_neg same] at is
        exact absurd is nofun
    | source targ src => exact absurd is nofun
  · exact fun inside => ⟨_, inside, if_pos rfl⟩

theorem Follows.drivers_perm (follows : Follows decls sources) (sig : SignalId) :
    (sources.drivers sig).Perm (drivingProcesses decls sig) := by
  refine (List.perm_ext_iff_of_nodup (follows.nodup sig) (List.nodup_dedup _)).mpr fun proc => ?_
  rw [follows.drivers]
  exact mem_drivingProcesses.symm

theorem toList_cons {range : SigTableRange} (some : range.first ≤ range.last) :
    range.toList = range.first :: range.toList.drop 1 := by
  unfold SigTableRange.toList
  rw [Nat.succ_sub some, List.range'_succ]
  rfl

/-- `Check_Resolved_Driver` compares the counts of drivers. -/
theorem checkResolvedDriver_iff (follows : Follows decls sources) (resolv : ResolvedSignal) :
    sources.checkResolvedDriver resolv = .ok () ↔ SameCounts decls resolv.sigRange := by
  have lengths : ∀ sig, (sources.drivers sig).length = (drivingProcesses decls sig).length :=
    fun sig => (follows.drivers_perm sig).length_eq
  unfold checkResolvedDriver SameCounts
  simp only [lengths]
  rw [forM_ok]
  rcases Nat.lt_or_ge resolv.sigRange.last resolv.sigRange.first with empty | some
  · have none : resolv.sigRange.toList = [] := by
      unfold SigTableRange.toList
      rw [Nat.sub_eq_zero_of_le empty]
      rfl
    rw [none]
    simp
  · have passes : ∀ sig, (if (drivingProcesses decls sig).length ≠
        (drivingProcesses decls resolv.sigRange.first).length then
          (.error (.error "missing drivers for subelement of a resolved signal") : Except GrtError Unit)
        else .ok ()) = .ok () ↔
        (drivingProcesses decls sig).length = (drivingProcesses decls resolv.sigRange.first).length := by
      intro sig
      split
      · rename_i differs
        exact iff_of_false nofun differs
      · rename_i same
        exact iff_of_true rfl (not_not.mp same)
    have first : resolv.sigRange.first ∈ resolv.sigRange.toList := by
      rw [toList_cons some]
      exact List.mem_cons_self
    constructor
    · intro checked
      have same : ∀ sig ∈ resolv.sigRange.toList, (drivingProcesses decls sig).length =
          (drivingProcesses decls resolv.sigRange.first).length := by
        rw [toList_cons some, List.forall_mem_cons]
        exact ⟨rfl, fun sig inside => (passes sig).mp (checked sig inside)⟩
      exact fun i hi j hj => (same i hi).trans (same j hj).symm
    · exact fun same sig inside => (passes sig).mpr (same sig (List.mem_of_mem_drop inside) _ first)

theorem SameSources.sameCounts {Port : Type*} {port : SignalId → Port} {range : SigTableRange}
    (same : SameSources port decls range) : SameCounts decls range := fun i hi j hj =>
  ((List.perm_ext_iff_of_nodup (List.nodup_dedup _) (List.nodup_dedup _)).mpr (same i hi j hj).1).length_eq

/-- `Check_Resolved_Driver` accepts exactly the signals whose subelements have the same sources, unless
all subelements are driven by as many processes but not by the same, or have different ports. -/
theorem checkResolvedDriver_accepts_iff {Port : Type*} (port : SignalId → Port) {sources : Sources}
    (elaborated : elaborate resolved decls = .ok sources) (resolv : ResolvedSignal) :
    (sources.checkResolvedDriver resolv = .ok () ↔ SameSources port decls resolv.sigRange) ↔
      ¬(SameCounts decls resolv.sigRange ∧ ¬SameSources port decls resolv.sigRange) := by
  rw [checkResolvedDriver_iff (elaborate_follows elaborated)]
  constructor
  · exact fun accepts differ => differ.2 (accepts.mp differ.1)
  · exact fun accepts => ⟨fun counts => by_contra fun differ => accepts ⟨counts, differ⟩, SameSources.sameCounts⟩

/-- A subelement without a driver is found. -/
theorem checkResolvedDriver_missing : ∃ sources, elaborate (fun _ => true) [.driver 0 0] = .ok sources ∧
      (sources.checkResolvedDriver ⟨⟨0, 1⟩, fun _ => [], 0⟩ = .ok () ↔ SameSources id [.driver 0 0] ⟨0, 1⟩) :=
  ⟨_, rfl, (@checkResolvedDriver_accepts_iff (fun _ => true) [.driver 0 0] _ id _ rfl
    ⟨⟨0, 1⟩, fun _ => [], 0⟩).mpr fun counts =>
      absurd (counts.1 0 (by decide) 1 (by decide)) (by decide)⟩

/-- Two processes that drive one subelement each are accepted. -/
theorem checkResolvedDriver_different :
    let decls : List SourceDecl := [.driver 0 0, .driver 1 1]
    let resolv : ResolvedSignal := ⟨⟨0, 1⟩, fun _ => [], 0⟩
    ∃ sources, elaborate (fun _ => true) decls = .ok sources ∧
      ¬(sources.checkResolvedDriver resolv = .ok () ↔ SameSources id decls resolv.sigRange) := by
  intro decls resolv
  refine ⟨_, rfl, fun accepts => ?_⟩
  have same := accepts.mp (by decide)
  have drives := (same 0 (by decide) 1 (by decide)).1 0
  exact absurd drives (by decide)

end Sources

end Ghdl.Grt
