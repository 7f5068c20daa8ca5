import Ghdl.Grt.DriverWaveform

/-!
# Signal assignments preempt as the standard says

The run of a driver: signal assignments, each editing the list of transactions in place, and
advances of the current time, each consuming the transaction that is due. `Projects` is the same
run over projected output waveforms, with the marking rules; `Driver.run_represents` is the
refinement.
-/

namespace Ghdl.Grt

open Projected

/-- The value components of two transactions are the same. Two error transactions are: neither
has a value. -/
def TransactionKind.sameValue (mode : ModeType) : TransactionKind → TransactionKind → Bool
  | value left, value right => valueEqual left right mode
  | direct, direct => true
  | null, null => true
  | error _ _, error _ _ => true
  | _, _ => false

/-- The value components of two transactions are the same. -/
def Transaction.sameValue (mode : ModeType) (left right : Transaction) : Bool :=
  left.kind.sameValue mode right.kind

namespace TransactionKind

theorem not_differs (mode : ModeType) (next trans : TransactionKind) :
    (!next.differs mode trans) = next.sameValue mode trans := by
  cases next <;> cases trans <;> simp [differs, sameValue]

theorem sameValue_symm {mode : ModeType} {left right : TransactionKind}
    (same : left.sameValue mode right = true) : right.sameValue mode left = true := by
  cases left <;> cases right <;> first | exact valueEqual_symm same | exact same

theorem sameValue_trans {mode : ModeType} {left middle right : TransactionKind}
    (first : left.sameValue mode middle = true) (second : middle.sameValue mode right = true) :
    left.sameValue mode right = true := by
  cases left <;> cases middle <;> first
    | exact absurd first Bool.false_ne_true
    | (cases right <;> first
        | exact absurd second Bool.false_ne_true
        | rfl
        | exact valueEqual_trans first second)

end TransactionKind

theorem Transaction.sameValue_symm (mode : ModeType) (left right : Transaction)
    (same : left.sameValue mode right = true) : right.sameValue mode left = true :=
  TransactionKind.sameValue_symm same

theorem Transaction.sameValue_trans (mode : ModeType) (left middle right : Transaction)
    (first : left.sameValue mode middle = true) (second : middle.sameValue mode right = true) :
    left.sameValue mode right = true := TransactionKind.sameValue_trans first second

/-- A signal assignment statement: the pulse rejection limit and the waveform elements, the
first one and the others, each with its delay. -/
structure Assignment where
  /-- The pulse rejection limit. -/
  reject : Int
  /-- The delay of the first waveform element. -/
  after : Int
  /-- The value of the first waveform element. -/
  kind : TransactionKind
  /-- The other waveform elements. -/
  rest : List (Int × TransactionKind)

namespace Assignment

/-- The transactions of an assignment executed at a time. -/
def transactions (assignment : Assignment) (now : Int) : List Transaction :=
  assignment.rest.map fun element => ⟨element.2, now + element.1⟩

/-- An assignment that the standard allows, executed at a time from which it does not reach
beyond the latest one. -/
structure Legal (assignment : Assignment) (now : Int) : Prop where
  /-- The pulse rejection limit is not negative. -/
  positive : 0 ≤ assignment.reject
  /-- The pulse rejection limit is at most the first delay. -/
  bounded : assignment.reject ≤ assignment.after
  /-- The delays increase. -/
  ascending : (assignment.after :: assignment.rest.map Prod.fst).Pairwise (· < ·)
  /-- The elements are value, null or error transactions. -/
  plain : ∀ kind ∈ assignment.kind :: assignment.rest.map Prod.snd, kind.isDirect = false
  /-- The assignment does not reach beyond the latest time. -/
  fits : ∀ delay ∈ assignment.after :: assignment.rest.map Prod.fst, now + delay ≤ StdTime.last

theorem times_ascend {assignment : Assignment}
    (ascending : (assignment.after :: assignment.rest.map Prod.fst).Pairwise (· < ·)) (now : Int) :
    ((⟨assignment.kind, now + assignment.after⟩ : Transaction) ::
      assignment.transactions now).Pairwise fun earlier later => earlier.time < later.time := by
  simp only [transactions, List.pairwise_cons, List.pairwise_map, List.mem_map,
    forall_exists_index, and_imp, forall_apply_eq_imp_iff₂] at ascending ⊢
  exact ⟨fun element inside => by have := ascending.1 element inside; omega, ascending.2.imp fun before => by omega⟩

theorem Legal.times {assignment : Assignment} {now : Int} (legal : assignment.Legal now) :
    ((⟨assignment.kind, now + assignment.after⟩ : Transaction) ::
      assignment.transactions now).Pairwise fun earlier later => earlier.time < later.time :=
  times_ascend legal.ascending now

end Assignment

/-- What happens to a driver: its process executes an assignment, or the current time is
advanced. -/
inductive DriverStep where
  | assign (assignment : Assignment)
  | advance (time : Int)

/-- A projected output waveform of the run time. -/
abbrev DriverWaveform := Waveform Transaction.time

/-- The steps of a driver as the standard describes them, from one time and projected output
waveform to another. -/
inductive Projects (mode : ModeType) :
    Int × DriverWaveform → List DriverStep → Int × DriverWaveform → Prop
  /-- Without steps nothing changes. -/
  | nil (state : Int × DriverWaveform) : Projects mode state [] state
  /-- An assignment preempts by the marking rules. -/
  | assign {now : Int} {waveform : DriverWaveform} {assignment : Assignment}
      {steps : List DriverStep} {final : Int × DriverWaveform} (legal : assignment.Legal now)
      (rest : Projects mode (now, waveform.assign (Transaction.sameValue mode)
        (now + assignment.after - assignment.reject) ⟨assignment.kind, now + assignment.after⟩
        (assignment.transactions now) legal.times) steps final) :
      Projects mode (now, waveform) (.assign assignment :: steps) final
  /-- Advancing the time consumes the transaction that is due. -/
  | advance {now time : Int} {waveform : DriverWaveform} {steps : List DriverStep}
      {final : Int × DriverWaveform} (positive : 0 ≤ time)
      (rest : Projects mode (time, waveform.advance time) steps final) :
      Projects mode (now, waveform) (.advance time :: steps) final

namespace Driver

/-- One step of a driver at a time, as the run time executes it. -/
def step (mode : ModeType) (state : Int × Driver) : DriverStep → Except GrtError (Int × Driver)
  | .assign assignment => do
    let driver ← state.2.signalAssignment mode state.1 assignment.reject assignment.after
      assignment.kind assignment.rest
    .ok (state.1, driver)
  | .advance time => do
    let (_, driver) ← state.2.update time
    .ok (time, driver)

/-- The list of the driver is this projected output waveform, of value, null and error transactions
only. -/
def Represents (driver : Driver) (waveform : DriverWaveform) : Prop :=
  (∃ first pending, driver.Holds first pending ∧ first.2 = waveform.current ∧
    pending.map Prod.snd = waveform.pending) ∧
    ∀ t ∈ waveform.pending, t.kind.isDirect = false

variable {driver : Driver} {waveform : DriverWaveform} {mode : ModeType}

variable {assignment : Assignment} {now : Int}

/-- An assignment of value, null and error transactions leaves only such. -/
theorem assign_plain (legal : assignment.Legal now) (plain : ∀ t ∈ waveform.pending, t.kind.isDirect = false) :
    ∀ t ∈ (waveform.assign (Transaction.sameValue mode) (now + assignment.after - assignment.reject)
      ⟨assignment.kind, now + assignment.after⟩ (assignment.transactions now) legal.times).pending,
      t.kind.isDirect = false := by
  intro t inside
  have member := (keepAt_sublist _ _).subset inside
  have kinds := legal.plain
  simp only [Assignment.transactions, List.mem_append, List.mem_filter, List.mem_cons, List.mem_map,
    forall_eq_or_imp, forall_exists_index, and_imp, forall_apply_eq_imp_iff₂] at member kinds
  rcases member with ⟨old, -⟩ | rfl | ⟨element, new, rfl⟩
  · exact plain t old
  · exact kinds.1
  · exact kinds.2 element new

theorem kept_map (mode : ModeType) (kind : TransactionKind) (time limit : Int) (old : List TransEntry) :
    (kept mode kind limit old).map Prod.snd = (old.map Prod.snd).filter (fun t => t.time < limit) ++
        ((old.map Prod.snd).filter fun t => limit ≤ t.time).rtakeWhile
          fun t => Transaction.sameValue mode t ⟨kind, time⟩ := by
  simp only [kept, List.map_append, List.filter_map, List.rtakeWhile, ← List.map_reverse,
    List.takeWhile_map, Function.comp_def, TransactionKind.not_differs, Transaction.sameValue]

theorem signalAssignment_represents (mode : ModeType)
    (represents : driver.Represents waveform) (positive : 0 ≤ now) (legal : assignment.Legal now) :
    ∃ driver', driver.signalAssignment mode now assignment.reject assignment.after assignment.kind
        assignment.rest = .ok driver' ∧ driver'.Represents (waveform.assign (Transaction.sameValue mode)
        (now + assignment.after - assignment.reject) ⟨assignment.kind, now + assignment.after⟩
        (assignment.transactions now) legal.times) := by
  obtain ⟨⟨first, pending, holds, current, contents⟩, plain⟩ := represents
  have bounded := legal.bounded
  have nonneg := legal.positive
  have fits := legal.fits
  simp only [List.mem_cons, List.mem_map, forall_eq_or_imp, forall_exists_index, and_imp,
    forall_apply_eq_imp_iff₂] at fits
  have ascending : Ascending pending := by
    have ascending := waveform.ascending
    rw [← contents, List.pairwise_map] at ascending
    exact ascending
  have sum : StdTime.add now assignment.after = now + assignment.after := StdTime.add_exact positive (by omega) fits.1
  have difference : StdTime.sub (now + assignment.after) assignment.reject =
      now + assignment.after - assignment.reject := StdTime.sub_exact nonneg (by omega) fits.1
  obtain ⟨started, resultStart, holdsStart⟩ :=
    startAssign_spec mode assignment.kind holds ascending nonneg bounded difference
  obtain ⟨final, added, resultRest, holdsFinal, new⟩ :=
    nextAssigns_spec holdsStart positive rfl (by omega) legal.ascending fits.2
  refine ⟨final, ?_, ⟨first, _, holdsFinal, current, ?_⟩, assign_plain legal plain⟩
  · rw [signalAssignment, sum, resultStart]
    exact resultRest
  · refine Eq.trans ?_ (survivors_eq (Transaction.sameValue_symm mode) (Transaction.sameValue_trans mode) _ _
      (waveform.ascending.filter _) _ _).symm
    rw [← contents, List.map_append, List.map_cons, new, kept_map]
    simp only [List.filter_map, Function.comp_def]
    rfl

theorem update_represents (represents : driver.Represents waveform) (time : Int) :
    ∃ activity driver', driver.update time = .ok (activity, driver') ∧ driver'.Represents (waveform.advance time) := by
  obtain ⟨⟨first, pending, holds, current, contents⟩, plain⟩ := represents
  obtain ⟨_, future, ascending⟩ := waveform
  subst current contents
  cases pending with
  | nil => exact ⟨.idle, driver, update_nil time holds, ⟨first, [], holds, rfl, rfl⟩, plain⟩
  | cons next pending =>
    simp only [List.map_cons, List.forall_mem_cons] at plain
    have result := update_cons time holds plain.1
    by_cases due : next.2.time = time
    · obtain ⟨consumed, resultConsume, holdsNext, -⟩ := consume_spec holds
      rw [if_pos due, resultConsume] at result
      refine ⟨_, consumed, result, ⟨next, pending, holdsNext, ?_, ?_⟩, ?_⟩
      · simp [Waveform.advance, due]
      · simp [Waveform.advance, due]
      · simpa [Waveform.advance, due] using plain.2
    · rw [if_neg due] at result
      refine ⟨_, driver, result, ⟨first, next :: pending, holds, ?_, ?_⟩, ?_⟩
      · simp [Waveform.advance, due]
      · simp [Waveform.advance, due]
      · simpa [Waveform.advance, due] using plain

/-- Every assignment of a run is legal at the time it is executed, and no time is negative. -/
def LegalRun : Int → List DriverStep → Prop
  | _, [] => True
  | now, .assign assignment :: steps => assignment.Legal now ∧ LegalRun now steps
  | _, .advance time :: steps => 0 ≤ time ∧ LegalRun time steps

theorem run_represents (mode : ModeType) {steps : List DriverStep}
    (represents : driver.Represents waveform) (positive : 0 ≤ now) (legal : LegalRun now steps) :
    ∃ time driver' waveform', steps.foldlM (step mode) (now, driver) = .ok (time, driver') ∧
      Projects mode (now, waveform) steps (time, waveform') ∧ driver'.Represents waveform' := by
  induction steps generalizing now driver waveform with
  | nil => exact ⟨now, driver, waveform, rfl, .nil _, represents⟩
  | cons head steps ih =>
    cases head with
    | assign assignment =>
      obtain ⟨next, result, representsNext⟩ := signalAssignment_represents mode represents positive legal.1
      obtain ⟨time, final, waveform', resultRest, projects, representsFinal⟩ := ih representsNext positive legal.2
      refine ⟨time, final, waveform', ?_, .assign legal.1 projects, representsFinal⟩
      simp only [List.foldlM_cons, step, result, bind, Except.bind]
      exact resultRest
    | advance time =>
      obtain ⟨activity, next, result, representsNext⟩ := update_represents represents time
      obtain ⟨time', final, waveform', resultRest, projects, representsFinal⟩ := ih representsNext legal.1 legal.2
      refine ⟨time', final, waveform', ?_, .advance legal.1 projects, representsFinal⟩
      simp only [List.foldlM_cons, step, result, bind, Except.bind]
      exact resultRest

/-- Every sequence of signal assignments on a driver, interleaved with advances of the current time,
leaves exactly the list that the marking rules give, and each assignment is one application of
these rules: the old transactions at or after the first new one are deleted, those before the
rejection window survive, and so does the run of window transactions with the same value that
immediately precedes the first new one. The list is ascending after its first transaction and
`Last_Trans` is its last one. -/
theorem assignments_preempt {now : Int} {steps : List DriverStep}
    (represents : driver.Represents waveform) (positive : 0 ≤ now) (legal : LegalRun now steps) :
    (∃ time driver' waveform', steps.foldlM (step mode) (now, driver) = .ok (time, driver') ∧
      Projects mode (now, waveform) steps (time, waveform') ∧
      ∃ first pending, driver'.Holds first pending ∧ first.2 = waveform'.current ∧
        pending.map Prod.snd = waveform'.pending ∧ Ascending pending) ∧
    ∀ (old : DriverWaveform) (now : Int) (assignment : Assignment) (legal : assignment.Legal now),
      (old.assign (Transaction.sameValue mode) (now + assignment.after - assignment.reject)
          ⟨assignment.kind, now + assignment.after⟩ (assignment.transactions now) legal.times).pending =
        (old.pending.filter fun t => t.time < now + assignment.after).filter
            (fun t => t.time < now + assignment.after - assignment.reject) ++
          ((old.pending.filter fun t => t.time < now + assignment.after).filter
            fun t => now + assignment.after - assignment.reject ≤ t.time).rtakeWhile
              (fun t => t.sameValue mode ⟨assignment.kind, now + assignment.after⟩) ++
            ⟨assignment.kind, now + assignment.after⟩ :: assignment.transactions now := by
  refine ⟨?_, fun old now assignment legal => survivors_eq (Transaction.sameValue_symm mode)
    (Transaction.sameValue_trans mode) _ _ (old.ascending.filter _) _ _⟩
  obtain ⟨time, final, waveform', result, projects, ⟨first, pending, holds, current, contents⟩, -⟩ :=
    run_represents mode represents positive legal
  have ascending : Ascending pending := by
    have ascending := waveform'.ascending
    rw [← contents, List.pairwise_map] at ascending
    exact ascending
  exact ⟨time, final, waveform', result, projects, first, pending, holds, current, contents, ascending⟩

/-- A pulse shorter than the rejection limit: an assignment at 2 of elements at 5 and 7, and one at
4 of an element at 8 with a limit of 3. -/
def pulse : List DriverStep :=
  [.advance 2, .assign ⟨0, 3, .value (.b1 true), [(5, .null)]⟩, .advance 4,
    .assign ⟨3, 4, .null, []⟩]

/-- The run of a new driver through the pulse. -/
theorem assignments_preempt_pulse : ∃ time driver' waveform', pulse.foldlM (step .b1) (0, create 0 (.b1 false)) =
        .ok (time, driver') ∧ Projects .b1 (0, ⟨⟨.value (.b1 false), 0⟩, [], .nil⟩) pulse (time, waveform') ∧
      ∃ first pending, driver'.Holds first pending ∧ first.2 = waveform'.current ∧
        pending.map Prod.snd = waveform'.pending ∧ Ascending pending := by
  have legal : LegalRun 0 pulse := by
    refine ⟨by decide, ⟨by decide, by decide, by decide, by decide, by decide⟩, by decide,
      ⟨by decide, by decide, by decide, by decide, by decide⟩, trivial⟩
  have start : (create 0 (.b1 false)).Represents ⟨⟨.value (.b1 false), 0⟩, [], .nil⟩ :=
    ⟨⟨_, [], create_holds 0 (.b1 false), rfl, rfl⟩, by simp⟩
  exact (assignments_preempt start (by decide) legal).1

end Driver

end Ghdl.Grt
