import Mathlib.Data.List.Induction
import Ghdl.Linked.Family
import Ghdl.System.Run
import Ghdl.Synth.Netlists

/-!
# Sinks of the nets

The sinks of the nets are disjoint lists that share the links `Next_Sink`: `Connect` puts an input in front of
one and `Disconnect` takes it out. `Redirect_Inputs` leaves the sinks where they were, so that the lists are
right in the runs where no net with sinks is redirected, and after no other redirection.
-/

namespace Ghdl.Synth

open Linked Transition Function

namespace Netlist

/-- The inputs that are visited from the first sink of a net. -/
def Sinks (t : Netlist) (o : Net) (sinks : List Input) : Prop :=
  Segment (fun i => some (t.getNextSink i)) (t.getFirstSink o) sinks none

/-- The list of sinks of each net has the inputs that the net drives, once each, and no others. -/
def SinkLists (t : Netlist) : Prop :=
  ∀ o, t.ValidNet o → ∃ sinks, t.Sinks o sinks ∧ sinks.Nodup ∧
    ∀ i, i ∈ sinks ↔ t.ValidInput i ∧ t.getDriver i = some o

/-- The link of an input that is driven. -/
def links (t : Netlist) (i : Input) : Option (Option Input) := (t.getDriver i).map fun _ => t.getNextSink i

/-- The sinks of each net are its cells. -/
structure Threaded (t : Netlist) (cells : Net → List Input) : Prop where
  family : Family t.links t.getFirstSink cells
  driven : ∀ i o, i ∈ cells o ↔ t.getDriver i = some o
  valid : ∀ i o, t.getDriver i = some o → t.ValidInput i ∧ t.ValidNet o

variable {t t' : Netlist} {cells : Net → List Input} {i b : Input} {o old n : Net} {l m : List Input}
  {p q : Option Input}

theorem links_eq (driven : t.getDriver i = some o) : t.links i = some (t.getNextSink i) := by
  unfold links
  rw [driven]
  rfl

section

variable (threaded : t.Threaded cells)
include threaded

theorem Threaded.raw {sinks : List Input} (inside : ∀ i ∈ sinks, i ∈ cells o) :
    Segment (fun i => some (t.getNextSink i)) p sinks q ↔ Segment t.links p sinks q :=
  Segment.congr fun i member => (links_eq ((threaded.driven i o).mp (inside i member))).symm

theorem Threaded.sinks (o : Net) : t.Sinks o (cells o) :=
  (threaded.raw fun _ member => member).mpr (threaded.family.path o)

theorem Threaded.length_le (o : Net) : (cells o).length ≤ t.lastInput := by
  have inside : ∀ i ∈ cells o, i ∈ List.range' 1 t.lastInput := by
    intro i member
    have valid := (threaded.valid i o ((threaded.driven i o).mp member)).1
    rw [List.mem_range'_1]
    exact ⟨valid.1, Nat.lt_one_add_iff.mpr valid.2⟩
  have fewer := (List.subperm_of_subset (threaded.family.nodup o) inside).length_le
  rwa [List.length_range'] at fewer

theorem Threaded.sinkLists : t.SinkLists := by
  intro o _
  refine ⟨cells o, threaded.sinks o, threaded.family.nodup o, fun i => ?_⟩
  rw [threaded.driven]
  constructor
  · intro driven
    exact ⟨(threaded.valid i o driven).1, driven⟩
  · intro both
    exact both.2

end

theorem empty_threaded : Netlist.empty.Threaded fun _ => [] where
  family :=
    { path := fun _ => rfl
      disjoint := fun _ _ _ _ member => absurd member List.not_mem_nil
      complete := fun _ linked => absurd rfl linked }
  driven i o := by
    constructor
    · intro member
      exact absurd member List.not_mem_nil
    · intro driven
      cases driven
  valid i o driven := by cases driven

theorem Threaded.newInstance (threaded : t.Threaded cells) (klass : ModuleId) (nbrInputs : Nat)
    (outputs : List Width) (nbrParams : Nat) : (t.newInstance klass nbrInputs outputs nbrParams).2.Threaded cells := by
  have driver : ∀ i, (t.newInstance klass nbrInputs outputs nbrParams).2.getDriver i = t.getDriver i := by
    intro i
    by_cases old : i ≤ t.lastInput
    · simp [Netlist.newInstance, getDriver, old]
    have none : t.getDriver i = none := by
      cases driven : t.getDriver i with
      | none => rfl
      | some o => exact absurd (threaded.valid i o driven).1.2 old
    rw [none]
    simp [Netlist.newInstance, getDriver, old]
  have links : (t.newInstance klass nbrInputs outputs nbrParams).2.links = t.links := by
    funext i
    unfold Netlist.links
    rw [driver]
    cases driven : t.getDriver i with
    | none => rfl
    | some o =>
      have old := (threaded.valid i o driven).1.2
      simp [Netlist.newInstance, getNextSink, old]
  have heads : ∀ o, (t.newInstance klass nbrInputs outputs nbrParams).2.getFirstSink o = t.getFirstSink o := by
    intro o
    by_cases old : o ≤ t.lastNet
    · simp [Netlist.newInstance, getFirstSink, old]
    have empty : cells o = [] := by
      apply List.eq_nil_iff_forall_not_mem.mpr
      intro i member
      exact old (threaded.valid i o ((threaded.driven i o).mp member)).2.2
    rw [threaded.family.head_none.mpr empty]
    simp [Netlist.newInstance, getFirstSink, old]
  refine
    { family := ?_, driven := fun i o => by rw [driver]; exact threaded.driven i o
      valid := fun i o driven => ?_ }
  · rw [links]
    exact threaded.family.congr_head heads
  · rw [driver] at driven
    obtain ⟨⟨positive, bound⟩, positive', bound'⟩ := threaded.valid i o driven
    exact ⟨⟨positive, Nat.le_add_right_of_le bound⟩, positive', Nat.le_add_right_of_le bound'⟩

theorem Threaded.connect (threaded : t.Threaded cells) (input : t.ValidInput i) (net : t.ValidNet o)
    (free : t.getDriver i = none) : ∃ t', t.connect i o = .ok t' ∧ t'.Threaded (update cells o (i :: cells o)) ∧
      t'.lastInput = t.lastInput ∧ t'.lastNet = t.lastNet := by
  have unlinked : t.links i = none := by
    unfold links
    rw [free]
    rfl
  unfold Netlist.connect check
  rw [if_pos input, if_pos net, if_pos free]
  refine ⟨_, rfl, ?_, rfl, rfl⟩
  have pushed := threaded.family.push unlinked o
  refine { family := ?_, driven := fun j o' => ?_, valid := fun j o' driven => ?_ }
  · convert pushed using 1
    · funext j
      by_cases here : j = i
      · subst here
        simp [links, getDriver, getNextSink, getFirstSink, setFirstSink, setInput]
      · simp [links, getDriver, getNextSink, setFirstSink, setInput, here]
    · funext o'
      by_cases here : o' = o
      · subst here
        simp [getFirstSink, setFirstSink]
      · simp [getFirstSink, setFirstSink, setInput, here]
  · by_cases here : j = i
    · subst here
      have outside : ∀ o', j ∉ cells o' := fun o' => threaded.family.not_mem unlinked o'
      by_cases there : o' = o
      · subst there
        simp [getDriver, setFirstSink, setInput]
      · rw [update_of_ne there]
        simp [getDriver, setFirstSink, setInput, outside o', Ne.symm there]
    · have same := threaded.driven j o'
      by_cases there : o' = o
      · subst there
        simpa [getDriver, setFirstSink, setInput, here] using same
      · rw [update_of_ne there]
        simpa [getDriver, setFirstSink, setInput, here] using same
  · by_cases here : j = i
    · subst here
      have same : o = o' := by simpa [getDriver, setFirstSink, setInput] using driven
      subst same
      exact ⟨input, net⟩
    · refine threaded.valid j o' ?_
      simpa [getDriver, setFirstSink, setInput, here] using driven

theorem disconnectWalk_eq (path : Segment (fun s => some (t.getNextSink s)) p (l ++ [b]) (some i))
    (valid : ∀ s ∈ l ++ [b], t.ValidInput s) (outside : i ∉ l ++ [b]) {fuel : Nat}
    (enough : l.length < fuel) (nextSink : Option Input) :
    disconnectWalk i nextSink fuel p t = .ok (t.setNextSink b nextSink) := by
  induction l generalizing p fuel with
  | nil =>
    obtain ⟨rfl, r, link, rfl⟩ := path
    obtain ⟨fuel, rfl⟩ := Fallible.fuel_succ enough
    have here : t.ValidInput b := valid b List.mem_cons_self
    have next : t.getNextSink b = some i := Option.some.inj link
    rw [disconnectWalk, check, if_pos here]
    exact if_pos next
  | cons a l ih =>
    obtain ⟨rfl, r, link, rest⟩ := path
    obtain ⟨fuel, rfl⟩ := Nat.exists_eq_succ_of_ne_zero (Nat.ne_of_gt (Nat.lt_of_le_of_lt (Nat.zero_le _) enough))
    have here : t.ValidInput a := valid a List.mem_cons_self
    have next : t.getNextSink a = r := Option.some.inj link
    have other : r ≠ some i := by
      intro same
      have first : ∃ c ∈ l ++ [b], r = some c := by
        cases l with
        | nil => exact ⟨b, List.mem_cons_self, rest.1⟩
        | cons c l => exact ⟨c, List.mem_cons_self, rest.1⟩
      obtain ⟨c, member, isC⟩ := first
      have equal : c = i := Option.some.inj (isC.symm.trans same)
      exact outside (equal ▸ List.mem_cons_of_mem a member)
    rw [disconnectWalk, check, if_pos here]
    have step : (if t.getNextSink a = some i then (return t.setNextSink a nextSink : Outcome Netlist)
        else disconnectWalk i nextSink fuel (t.getNextSink a) t) = disconnectWalk i nextSink fuel r t := by
      rw [next, if_neg other]
    refine step.trans (ih rest (fun s member => valid s (List.mem_cons_of_mem a member)) ?_ ?_)
    · exact fun member => outside (List.mem_cons_of_mem a member)
    · exact Nat.lt_of_succ_lt_succ enough

theorem Threaded.without (threaded : t.Threaded cells) (driven : t.getDriver i = some o)
    (removed : ∀ j o', j ∈ m ∧ o' = o ∨ j ∈ cells o' ∧ o' ≠ o ↔ j ∈ cells o' ∧ j ≠ i)
    (drivers : ∀ j, t'.getDriver j = if j = i then none else t.getDriver j)
    (family : Family t'.links t'.getFirstSink (update cells o m))
    (inputs : t'.lastInput = t.lastInput) (nets : t'.lastNet = t.lastNet) : t'.Threaded (update cells o m) where
  family := family
  driven j o' := by
    have iff := removed j o'
    rw [threaded.driven] at iff
    rw [drivers]
    by_cases here : j = i
    · subst here
      by_cases there : o' = o
      · subst there
        simpa using iff
      rw [update_of_ne there]
      have outside : j ∉ cells o' := by
        rw [threaded.driven, driven]
        simpa using Ne.symm there
      simpa using outside
    · by_cases there : o' = o
      · subst there
        simpa [here] using iff
      · rw [update_of_ne there, if_neg here]
        exact threaded.driven j o'
  valid j o' isDriven := by
    rw [drivers] at isDriven
    by_cases here : j = i
    · rw [if_pos here] at isDriven
      cases isDriven
    · rw [if_neg here] at isDriven
      have known := threaded.valid j o' isDriven
      unfold ValidInput ValidNet at known ⊢
      rwa [inputs, nets]

theorem Threaded.disconnect (threaded : t.Threaded cells) (driven : t.getDriver i = some o) :
    ∃ t', t.disconnect i = .ok t' ∧ t'.Threaded (update cells o ((cells o).erase i)) ∧
      t'.lastInput = t.lastInput ∧ t'.lastNet = t.lastNet := by
  have valid := threaded.valid i o driven
  have inside : i ∈ cells o := (threaded.driven i o).mpr driven
  have nodup := threaded.family.nodup o
  have link : t.links i = some (t.getNextSink i) := links_eq driven
  -- What becomes of the memberships, whichever branch is taken.
  have removed : ∀ j o', j ∈ (cells o).erase i ∧ o' = o ∨ j ∈ cells o' ∧ o' ≠ o ↔
      j ∈ cells o' ∧ j ≠ i := by
    intro j o'
    rw [nodup.mem_erase_iff]
    constructor
    · rintro (⟨⟨other, member⟩, rfl⟩ | ⟨member, apart⟩)
      · exact ⟨member, other⟩
      · refine ⟨member, ?_⟩
        rintro rfl
        exact threaded.family.disjoint o' o apart j member inside
    · rintro ⟨member, other⟩
      by_cases here : o' = o
      · exact .inl ⟨⟨other, here ▸ member⟩, here⟩
      · exact .inr ⟨member, here⟩
  unfold Netlist.disconnect
  rw [check, if_pos valid.1]
  simp only [driven]
  by_cases first : t.getFirstSink o = some i
  · obtain ⟨rest, front⟩ : ∃ rest, cells o = i :: rest := by
      have path := threaded.family.path o
      cases list : cells o with
      | nil =>
        rw [list] at inside
        exact absurd inside List.not_mem_nil
      | cons a rest =>
        rw [list] at path
        have same : i = a := Option.some.inj (first.symm.trans path.1)
        exact ⟨rest, by rw [same]⟩
    have erased : (cells o).erase i = rest := by
      rw [front, List.erase_cons_head]
    obtain ⟨r, link', popped⟩ := threaded.family.pop front
    have same : t.getNextSink i = r := Option.some.inj (link.symm.trans link')
    rw [if_pos (by simpa [getFirstSink, setInput] using first)]
    refine ⟨_, rfl, threaded.without driven removed (fun j => ?_) ?_ rfl rfl, rfl, rfl⟩
    · by_cases here : j = i
      · subst here
        simp [getDriver, setFirstSink, setInput]
      · simp [getDriver, setFirstSink, setInput, here]
    · rw [erased]
      convert popped using 1
      · funext j
        by_cases here : j = i
        · subst here
          simp [links, getDriver, setFirstSink, setInput]
        · simp [links, getDriver, getNextSink, setFirstSink, setInput, here]
      · funext o'
        by_cases here : o' = o
        · subst here
          simp [getFirstSink, setFirstSink, ← same]
        · simp [getFirstSink, setFirstSink, setInput, here]
  obtain ⟨l, b, m, split⟩ : ∃ l b m, cells o = l ++ b :: i :: m := by
    obtain ⟨before, m, list⟩ := List.append_of_mem inside
    cases before using List.reverseRecOn with
    | nil =>
      have path := threaded.family.path o
      rw [list] at path
      exact absurd path.1 first
    | append_singleton l b _ => exact ⟨l, b, m, by simpa using list⟩
  rw [split] at nodup
  have outside : i ∉ l ++ [b] := by
    intro member
    have apart := (List.nodup_append.mp (by simpa using nodup : ((l ++ [b]) ++ i :: m).Nodup)).2.2
    exact apart i member i List.mem_cons_self rfl
  have erased : (cells o).erase i = l ++ b :: m := by
    rw [split, show l ++ b :: i :: m = (l ++ [b]) ++ i :: m by simp, List.erase_append_right _ outside,
      List.erase_cons_head]
    simp
  obtain ⟨r, link', unlinked⟩ := threaded.family.unlink split
  have same : t.getNextSink i = r := Option.some.inj (link.symm.trans link')
  have different : b ≠ i := by
    rintro rfl
    exact outside (List.mem_append_right l List.mem_cons_self)
  rw [if_neg (by simpa [getFirstSink, setInput] using first)]
  -- The walk over the cells before I.
  have members : ∀ s ∈ l ++ [b], s ∈ cells o := by
    intro s member
    rw [split]
    simp only [List.mem_append, List.mem_cons, List.not_mem_nil, or_false] at member ⊢
    tauto
  have path : Segment (fun s => some (t.getNextSink s)) (t.getFirstSink o) (l ++ [b]) (some i) := by
    have whole := threaded.family.path o
    rw [split, show l ++ b :: i :: m = (l ++ [b]) ++ i :: m by simp] at whole
    obtain ⟨s, before, after⟩ := Segment.append_iff.mp whole
    obtain rfl := after.1
    exact (threaded.raw members).mpr before
  have short : l.length < t.lastInput + 1 := by
    have bound := threaded.length_le o
    rw [split] at bound
    simp at bound
    omega
  have walk : disconnectWalk i (t.getNextSink i) (t.lastInput + 1) (t.getFirstSink o)
      (t.setInput i { t.inputs i with nextSink := none, driver := none }) =
        .ok ((t.setInput i { t.inputs i with nextSink := none, driver := none }).setNextSink b
          (t.getNextSink i)) := by
    refine disconnectWalk_eq ?_ (fun s member => ?_) outside short _
    · refine (Segment.congr fun s member => ?_).mpr path
      have other : s ≠ i := ne_of_mem_of_not_mem member outside
      simp [getNextSink, setInput, other]
    · exact (threaded.valid s o ((threaded.driven s o).mp (members s member))).1
  refine ⟨_, walk, threaded.without driven removed (fun j => ?_) ?_ rfl rfl, rfl, rfl⟩
  · by_cases here : j = i
    · subst here
      simp [getDriver, setNextSink, setInput, Ne.symm different]
    · by_cases there : j = b
      · subst there
        simp [getDriver, setNextSink, setInput, here]
      · simp [getDriver, setNextSink, setInput, here, there]
  · rw [erased]
    convert unlinked using 1
    · funext j
      by_cases here : j = i
      · subst here
        simp [links, getDriver, setNextSink, setInput, Ne.symm different]
      by_cases there : j = b
      · subst there
        have drivenB := (threaded.driven j o).mp (members j (List.mem_append_right l List.mem_cons_self))
        unfold getDriver at drivenB
        simp [links, getDriver, getNextSink, setNextSink, setInput, here, drivenB, ← same]
      · simp [links, getDriver, getNextSink, setNextSink, setInput, here, there]
    · rfl

theorem redirectInputs_idle (net : t.ValidNet old) (none : t.getFirstSink old = none) :
    t.redirectInputs old n = .ok t := by
  unfold redirectInputs
  rw [check, if_pos net, none]
  rfl

/-- What the walk over the sinks of a net does: their drivers change, and the links stay. -/
structure Redirects (t : Netlist) (n : Net) (sinks : List Input) (t' : Netlist) : Prop where
  driver : ∀ i, t'.getDriver i = if i ∈ sinks then some n else t.getDriver i
  next : ∀ i, t'.getNextSink i = t.getNextSink i
  first : t'.getFirstSink = t.getFirstSink
  lastInput : t'.lastInput = t.lastInput
  lastNet : t'.lastNet = t.lastNet

theorem redirectWalk_spec {prevI : Option Input}
    (path : Segment (fun i => some (t.getNextSink i)) p l none) (nodup : l.Nodup)
    (driven : ∀ i ∈ l, t.getDriver i = some old) (previous : ∀ i, prevI = some i → t.getNextSink i = p)
    {fuel : Nat} (enough : l.length < fuel) :
    ∃ t', redirectWalk old n fuel p prevI t = .ok ((l.getLast?).or prevI, t') ∧ Redirects t n l t' := by
  induction l generalizing p prevI t fuel with
  | nil =>
    obtain ⟨fuel, rfl⟩ := Fallible.fuel_succ enough
    obtain rfl : p = none := path
    refine ⟨t, rfl, ⟨fun i => ?_, fun _ => rfl, rfl, rfl, rfl⟩⟩
    simp
  | cons a l ih =>
    obtain ⟨rfl, r, link, rest⟩ := path
    obtain ⟨fuel, rfl⟩ := Nat.exists_eq_succ_of_ne_zero (Nat.ne_of_gt (Nat.lt_of_le_of_lt (Nat.zero_le _) enough))
    have here : t.getDriver a = some old := driven a List.mem_cons_self
    have next : t.getNextSink a = r := Option.some.inj link
    obtain ⟨outside, nodup'⟩ := List.nodup_cons.mp nodup
    -- The tables after the round of A: the link from the previous input is written again.
    obtain ⟨t₁, round, driver₁, next₁, first₁, lastInput₁, lastNet₁⟩ : ∃ t₁,
        redirectWalk old n (fuel + 1) (some a) prevI t = redirectWalk old n fuel r (some a) t₁ ∧
          (∀ i, t₁.getDriver i = if i = a then some n else t.getDriver i) ∧
            (∀ i, t₁.getNextSink i = t.getNextSink i) ∧ t₁.getFirstSink = t.getFirstSink ∧
              t₁.lastInput = t.lastInput ∧ t₁.lastNet = t.lastNet := by
      have unchanged : ∀ i, (t.setInput a { t.inputs a with driver := some n }).getNextSink i =
          t.getNextSink i := by
        intro i
        by_cases same : i = a
        · subst same
          simp [getNextSink, setInput]
        · simp [getNextSink, setInput, same]
      have changed : ∀ i, (t.setInput a { t.inputs a with driver := some n }).getDriver i =
          if i = a then some n else t.getDriver i := by
        intro i
        by_cases same : i = a
        · subst same
          simp [getDriver, setInput]
        · simp [getDriver, setInput, same]
      rw [redirectWalk, check, if_pos here]
      cases prevI with
      | none =>
        refine ⟨t.setInput a { t.inputs a with driver := some n }, ?_, changed, unchanged, rfl, rfl, rfl⟩
        show redirectWalk old n fuel (getNextSink _ a) (some a) _ = _
        rw [unchanged, next]
      | some p =>
        have same : t.getNextSink p = some a := previous p rfl
        refine ⟨(t.setInput a { t.inputs a with driver := some n }).setNextSink p (some a), ?_, ?_, ?_, rfl, rfl, rfl⟩
        · show redirectWalk old n fuel (getNextSink _ a) (some a) _ = _
          congr 1
          by_cases equal : a = p
          · subst equal
            simp only [getNextSink, setNextSink, setInput, update_self]
            exact same.symm.trans next
          · simp only [getNextSink, setNextSink, setInput, update_of_ne equal, update_self]
            exact next
        · intro i
          rw [← changed]
          by_cases equal : i = p
          · subst equal
            simp [getDriver, setNextSink, setInput]
          · simp [getDriver, setNextSink, setInput, equal]
        · intro i
          by_cases equal : i = p
          · subst equal
            simpa [getNextSink, setNextSink, setInput] using same.symm
          · rw [← unchanged i]
            simp [getNextSink, setNextSink, setInput, equal]
    have path₁ : Segment (fun i => some (t₁.getNextSink i)) r l none :=
      (Segment.congr fun i _ => congrArg some (next₁ i)).mpr rest
    have driven₁ : ∀ i ∈ l, t₁.getDriver i = some old := by
      intro i member
      have other : i ≠ a := ne_of_mem_of_not_mem member outside
      rw [driver₁, if_neg other]
      exact driven i (List.mem_cons_of_mem a member)
    have previous₁ : ∀ i, some a = some i → t₁.getNextSink i = r := by
      intro i same
      rw [← Option.some.inj same, next₁]
      exact next
    obtain ⟨t', run, redirects⟩ := ih path₁ nodup' driven₁ previous₁ (Nat.lt_of_succ_lt_succ enough)
    refine ⟨t', ?_, ?_⟩
    · rw [round, run]
      cases l with
      | nil => rfl
      | cons b l => simp [List.getLast?_eq_some_getLast]
    · refine
        { driver := fun i => ?_, next := fun i => (redirects.next i).trans (next₁ i)
          first := redirects.first.trans first₁, lastInput := redirects.lastInput.trans lastInput₁
          lastNet := redirects.lastNet.trans lastNet₁ }
      rw [redirects.driver, driver₁]
      by_cases same : i = a
      · simp [same]
      · simp [same]

theorem no_end {next : Input → Option (Option Input)} (loop : Segment next p (i :: l) p)
    (ends : Segment next p m none) : False := by
  have twice := loop.append ends
  have same := congrArg List.length (twice.unique ends)
  rw [List.length_append, List.length_cons] at same
  omega

theorem Threaded.redirectInputs (threaded : t.Threaded cells) (netOld : t.ValidNet old)
    (net : t.ValidNet n) (sinks : t.getFirstSink old ≠ none) :
    ∃ t', t.redirectInputs old n = .ok t' ∧ ¬t'.SinkLists := by
  obtain ⟨a, first⟩ := Option.ne_none_iff_exists'.mp sinks
  have path := threaded.sinks old
  have nodup := threaded.family.nodup old
  have driven : ∀ i ∈ cells old, t.getDriver i = some old := fun i => (threaded.driven i old).mp
  have short : (cells old).length < t.lastInput + 1 := Nat.lt_succ_of_le (threaded.length_le old)
  unfold Sinks at path
  rw [first] at path
  have noPrevious : ∀ i, (none : Option Input) = some i → t.getNextSink i = some a := by
    intro i same
    cases same
  obtain ⟨t₁, walk, redirects⟩ := redirectWalk_spec path nodup driven noPrevious short (n := n)
  -- The list is not empty.
  obtain ⟨l, last, list⟩ : ∃ l last, cells old = l ++ [last] := by
    cases whole : cells old using List.reverseRecOn with
    | nil =>
      rw [whole] at path
      cases path
    | append_singleton l last _ => exact ⟨l, last, rfl⟩
  have net₁ : t₁.ValidNet n := by
    unfold ValidNet
    rw [redirects.lastNet]
    exact net
  have inside : a ∈ cells old := by
    cases front : cells old with
    | nil => simp [front] at list
    | cons c rest =>
      rw [front] at path
      rw [Option.some.inj path.1]
      exact List.mem_cons_self
  refine ⟨(t₁.setNextSink last (t₁.getFirstSink n)).setFirstSink n (some a), ?_, fun lists => ?_⟩
  · unfold Netlist.redirectInputs
    rw [check, if_pos netOld, first]
    show (redirectWalk old n (t.lastInput + 1) (some a) none t >>= _) = _
    rw [walk, list, List.getLast?_append]
    show (check (t₁.ValidNet n) >>= _) = _
    rw [check, if_pos net₁]
    rfl
  · have driver : ((t₁.setNextSink last (t₁.getFirstSink n)).setFirstSink n (some a)).getDriver a =
        some n := by
      have redirected := redirects.driver a
      rw [if_pos inside] at redirected
      unfold getDriver at redirected ⊢
      by_cases here : a = last
      · subst here
        simpa [setFirstSink, setNextSink, setInput] using redirected
      · simpa [setFirstSink, setNextSink, setInput, here] using redirected
    by_cases same : old = n
    · -- The last input is followed by the first one again.
      subst same
      obtain ⟨sinks, visited, -, -⟩ := lists old (by
        unfold ValidNet at net₁ ⊢
        exact net₁)
      have fresh : last ∉ l := by
        rw [list] at nodup
        intro member
        exact (List.nodup_append.mp nodup).2.2 last member last List.mem_cons_self rfl
      rw [list] at path
      have loop := path.redirect fresh (some a)
      have next : (fun i => some (((t₁.setNextSink last (t₁.getFirstSink old)).setFirstSink old
          (some a)).getNextSink i)) = update (fun i => some (t.getNextSink i)) last (some (some a)) := by
        funext i
        by_cases here : i = last
        · subst here
          simp [getNextSink, setFirstSink, setNextSink, setInput, redirects.first, first]
        · have kept := redirects.next i
          unfold getNextSink at kept
          simp [getNextSink, setFirstSink, setNextSink, setInput, here, kept]
      unfold Sinks at visited
      rw [next] at visited
      have start : ((t₁.setNextSink last (t₁.getFirstSink old)).setFirstSink old (some a)).getFirstSink old =
          some a := by
        simp [getFirstSink, setFirstSink]
      rw [start] at visited
      cases l with
      | nil | cons c l => exact no_end loop visited
    · -- The first input is still found from the old net.
      obtain ⟨sinks, visited, -, members⟩ := lists old (by
        unfold ValidNet at netOld ⊢
        exact redirects.lastNet ▸ netOld)
      have start : ((t₁.setNextSink last (t₁.getFirstSink n)).setFirstSink n (some a)).getFirstSink old =
          some a := by
        have kept : t₁.getFirstSink old = some a := by rw [redirects.first, first]
        unfold getFirstSink at kept
        simp [getFirstSink, setFirstSink, setNextSink, setInput, same, kept]
      unfold Sinks at visited
      rw [start] at visited
      have found : a ∈ sinks := by
        cases sinks with
        | nil => exact absurd (show some a = none from visited) (by simp)
        | cons c rest =>
          rw [Option.some.inj visited.1]
          exact List.mem_cons_self
      have drives := ((members a).mp found).2
      rw [driver] at drives
      exact same (Option.some.inj drives).symm

end Netlist

/-- The edits of a netlist. -/
inductive Edit where
  | newInstance (klass : ModuleId) (nbrInputs : Nat) (outputs : List Width) (nbrParams : Nat)
  | connect (i : Input) (o : Net)
  | disconnect (i : Input)
  | redirectInputs (old n : Net)
deriving DecidableEq, Repr

namespace Edit

/-- What the callers see to: an input is connected when it is not driven, and disconnected when it is. -/
def Allowed (t : Netlist) : Edit → Prop
  | newInstance .. => True
  | connect i o => t.ValidInput i ∧ t.ValidNet o ∧ t.getDriver i = none
  | disconnect i => t.getDriver i ≠ none
  | redirectInputs old n => t.ValidNet old ∧ t.ValidNet n

instance (t : Netlist) : (edit : Edit) → Decidable (edit.Allowed t)
  | newInstance .. => inferInstanceAs (Decidable True)
  | connect .. => inferInstanceAs (Decidable (_ ∧ _ ∧ _))
  | disconnect .. => inferInstanceAs (Decidable (_ ≠ _))
  | redirectInputs .. => inferInstanceAs (Decidable (_ ∧ _))

/-- The net that is redirected has no sinks. -/
def Idle (t : Netlist) : Edit → Prop
  | redirectInputs old _ => t.getFirstSink old = none
  | _ => True

instance (t : Netlist) : (edit : Edit) → Decidable (edit.Idle t)
  | newInstance .. => inferInstanceAs (Decidable True)
  | connect .. => inferInstanceAs (Decidable True)
  | disconnect .. => inferInstanceAs (Decidable True)
  | redirectInputs .. => inferInstanceAs (Decidable (_ = _))

/-- The tables after an edit. -/
def apply (t : Netlist) : Edit → Outcome Netlist
  | newInstance klass nbrInputs outputs nbrParams => .ok (t.newInstance klass nbrInputs outputs nbrParams).2
  | connect i o => t.connect i o
  | disconnect i => t.disconnect i
  | redirectInputs old n => t.redirectInputs old n

/-- Sequences of edits. -/
def edits : System Netlist Edit SynthError where
  enabled t edit := decide (edit.Allowed t)
  step := apply

variable {t t' : Netlist} {cells : Net → List Input} {edit : Edit}

theorem apply_idle (threaded : t.Threaded cells) (allowed : edit.Allowed t) (idle : edit.Idle t) :
    ∃ t' cells', edit.apply t = .ok t' ∧ t'.Threaded cells' := by
  cases edit with
  | newInstance klass nbrInputs outputs nbrParams =>
    exact ⟨_, cells, rfl, threaded.newInstance klass nbrInputs outputs nbrParams⟩
  | connect i o =>
    obtain ⟨t', run, threaded', -⟩ := threaded.connect allowed.1 allowed.2.1 allowed.2.2
    exact ⟨t', _, run, threaded'⟩
  | disconnect i =>
    obtain ⟨o, driven⟩ := Option.ne_none_iff_exists'.mp allowed
    obtain ⟨t', run, threaded', -⟩ := threaded.disconnect driven
    exact ⟨t', _, run, threaded'⟩
  | redirectInputs old n => exact ⟨t, cells, Netlist.redirectInputs_idle allowed.1 idle, threaded⟩

theorem apply_not_idle (threaded : t.Threaded cells) (allowed : edit.Allowed t) (idle : ¬edit.Idle t) :
    ∃ t', edit.apply t = .ok t' ∧ ¬t'.SinkLists := by
  cases edit with
  | newInstance klass nbrInputs outputs nbrParams | connect i o | disconnect i => exact absurd trivial idle
  | redirectInputs old n => exact threaded.redirectInputs allowed.1 allowed.2 idle

/-- In a run that redirects no net with sinks, the lists of sinks are right in every state; each further
edit succeeds, and keeps them exactly when it redirects no net with sinks. -/
theorem sink_lists_of_run (run : edits.Run (fun t edit => edit.Idle t) .empty t) :
    t.SinkLists ∧ ∀ edit : Edit, edit.Allowed t → ∃ t', edit.apply t = .ok t' ∧ (t'.SinkLists ↔ edit.Idle t) := by
  have keeps : ∀ state (edit : Edit) next, (∃ cells, state.Threaded cells) →
      edits.enabled state edit = true → edit.Idle state → edits.step state edit = .ok next →
        ∃ cells, next.Threaded cells := by
    rintro state edit next ⟨cells, threaded⟩ enabled idle result
    obtain ⟨t', cells', same, threaded'⟩ := apply_idle threaded (of_decide_eq_true enabled) idle
    have equal : next = t' := Except.ok.inj (result.symm.trans same)
    exact ⟨cells', equal ▸ threaded'⟩
  have base : ∃ cells, Netlist.empty.Threaded cells := ⟨_, Netlist.empty_threaded⟩
  obtain ⟨cells, threaded⟩ := run.invariant base keeps
  refine ⟨threaded.sinkLists, fun edit allowed => ?_⟩
  by_cases idle : edit.Idle t
  · obtain ⟨t', cells', result, threaded'⟩ := apply_idle threaded allowed idle
    exact ⟨t', result, iff_of_true threaded'.sinkLists idle⟩
  · obtain ⟨t', result, broken⟩ := apply_not_idle threaded allowed idle
    exact ⟨t', result, iff_of_false broken idle⟩

/-- A gate whose output drives both inputs of another one, one of which is disconnected again. -/
def fanOut : List Edit :=
  [.newInstance (.other 0) 0 [1] 0, .newInstance .mux2 3 [1] 0, .connect 1 1, .connect 2 1, .disconnect 1]

/-- The sinks after the inputs are connected and disconnected. -/
theorem sink_lists_fan_out :
    ∃ t, edits.Run (fun t edit => edit.Idle t) .empty t ∧ t.getDriver 2 = some 1 ∧ t.SinkLists ∧
      ∀ edit : Edit, edit.Allowed t → ∃ t', edit.apply t = .ok t' ∧ (t'.SinkLists ↔ edit.Idle t) := by
  have executed : (edits.execute (fun t edit => edit.Idle t) .empty fanOut).map
      (fun t => t.getDriver 2) = some (some 1) := by
    decide
  obtain ⟨t, run, driver⟩ := System.exists_run executed
  exact ⟨t, run, driver, sink_lists_of_run run⟩

/-- A net with a sink is redirected to another net: the sink is still found from it. -/
theorem redirect_keeps_sinks : ∃ t t', edits.Run (fun _ _ => True) .empty t ∧ Edit.Allowed t (.redirectInputs 1 2) ∧
      t.redirectInputs 1 2 = .ok t' ∧ t'.getDriver 1 = some 2 ∧ t'.getFirstSink 1 = some 1 ∧ ¬t'.SinkLists := by
  have executed : (edits.execute (fun _ _ => True) .empty [.newInstance (.other 0) 1 [1, 1] 0, .connect 1 1]).map
      (fun t => (decide (Edit.Allowed t (.redirectInputs 1 2)), (t.redirectInputs 1 2).toOption.map fun t' =>
        (t'.getDriver 1, t'.getFirstSink 1, t'.lastNet))) = some (true, some (some 2, some 1, 2)) := by
    decide
  obtain ⟨t, run, view⟩ := System.exists_run executed
  have allowed : Edit.Allowed t (.redirectInputs 1 2) := of_decide_eq_true (congrArg Prod.fst view)
  obtain ⟨t', result, seen⟩ := Fallible.exists_ok (congrArg Prod.snd view)
  obtain ⟨driver, first, last⟩ : t'.getDriver 1 = some 2 ∧ t'.getFirstSink 1 = some 1 ∧
      t'.lastNet = 2 := by
    simpa using seen
  refine ⟨t, t', run, allowed, result, driver, first, fun lists => ?_⟩
  have valid : t'.ValidNet 1 := by
    unfold Netlist.ValidNet
    rw [last]
    decide
  obtain ⟨sinks, visited, -, members⟩ := lists 1 valid
  unfold Netlist.Sinks at visited
  rw [first] at visited
  cases sinks with
  | nil => cases visited
  | cons i rest =>
    have same : 1 = i := Option.some.inj visited.1
    have drives := ((members i).mp List.mem_cons_self).2
    rw [← same, driver] at drives
    cases drives

end Edit

end Ghdl.Synth
