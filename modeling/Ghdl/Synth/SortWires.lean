import Ghdl.Sorting.Merge
import Ghdl.Synth.Environment

/-!
# Sorting the wires of a context

`Sort_Wires` is the merge sort of the chain by the wires: the records of the chain get new links, and nothing
else changes.
-/

namespace Ghdl.Synth

namespace Env

open Linked Sorting

/-- The links of the chains. -/
def links (e : Env) (a : Assign) : Option (Option Assign) := some (e.asgns a).chain

/-- The records of the chain from P, up to Q. -/
abbrev Chain (e : Env) (p : Option Assign) (l : List Assign) (q : Option Assign) : Prop := Segment e.links p l q

/-- The order of the wires of two records. -/
def before (e : Env) (a b : Assign) : Bool := decide ((e.asgns a).id ≤ (e.asgns b).id)

/-- Some records have other links, and nothing else is different. -/
structure Rechained (e e' : Env) (l : List Assign) : Prop where
  rest : e' = { e with asgns := e'.asgns }
  outside : ∀ a, a ∉ l → e'.asgns a = e.asgns a
  record : ∀ a, e'.asgns a = { e.asgns a with chain := (e'.asgns a).chain }

variable {e e' e'' : Env} {l l' ls rs ds : List Assign} {p q first : Option Assign} {a x : Assign}

theorem Rechained.refl (e : Env) : Rechained e e l := ⟨rfl, fun _ _ => rfl, fun _ => rfl⟩

theorem Rechained.trans (one : Rechained e e' l) (two : Rechained e' e'' l) : Rechained e e'' l where
  rest := by
    rw [two.rest, one.rest]
  outside a outside := (two.outside a outside).trans (one.outside a outside)
  record a := by
    rw [two.record a, one.record a]

theorem Rechained.mono (rechained : Rechained e e' l) (inside : ∀ a ∈ l, a ∈ l') : Rechained e e' l' :=
  ⟨rechained.rest, fun a outside => rechained.outside a fun member => outside (inside a member), rechained.record⟩

theorem Rechained.before (rechained : Rechained e e' l) : e'.before = e.before := by
  funext a b
  unfold Env.before
  rw [rechained.record a, rechained.record b]

theorem Rechained.chain (rechained : Rechained e e' l) (apart : ∀ a ∈ l', a ∉ l) : Chain e' p l' q ↔ Chain e p l' q :=
  Segment.congr fun a inside => by
    unfold links
    rw [rechained.outside a (apart a inside)]

theorem rechained_setAssignChain (e : Env) (a : Assign) (q : Option Assign) :
    Rechained e (e.setAssignChain a q) [a] where
  rest := rfl
  outside b outside := Function.update_of_ne (fun same => outside (List.mem_singleton.mpr same)) _ _
  record b := by
    by_cases same : b = a
    · subst same
      simp [setAssignChain]
    · simp [setAssignChain, same]

@[simp] theorem setAssignChain_links_self : (e.setAssignChain a q).links a = some q := by
  simp [links, setAssignChain]

/-- The elements DS are chained, and LAST is the last of them. -/
def Done (e : Env) (first : Option Assign) (ds : List Assign) : Prop :=
  Chain e first ds.dropLast ds.getLast?

theorem done_concat : Done e first (ds ++ [x]) ↔ Chain e first ds (some x) := by
  unfold Done
  rw [List.dropLast_concat, List.getLast?_concat]

theorem appendEl_spec (done : Done e first ds) (fresh : x ∉ ds) (nodup : ds.Nodup) :
    ∃ first' e', e.appendEl first ds.getLast? x = (first', e') ∧ Done e' first' (ds ++ [x]) ∧ Rechained e e' ds := by
  induction ds using List.reverseRecOn with
  | nil => exact ⟨some x, e, rfl, done_concat.mpr rfl, Rechained.refl e⟩
  | append_singleton ds y _ =>
    have single := rechained_setAssignChain e y (some x)
    have apart : y ∉ ds := by
      intro inside
      exact (List.nodup_append.mp nodup).2.2 y inside y (List.mem_singleton.mpr rfl) rfl
    refine ⟨first, e.setAssignChain y (some x), ?_, done_concat.mpr ?_, single.mono ?_⟩
    · rw [List.getLast?_concat]
      rfl
    · refine Segment.concat_iff.mpr ⟨?_, setAssignChain_links_self⟩
      refine (single.chain fun a inside => ?_).mpr (done_concat.mp done)
      intro same
      exact apart (List.mem_singleton.mp same ▸ inside)
    · intro a inside
      exact List.mem_append_right ds inside

theorem takeEl_spec (left : Chain e p ls none) (right : Chain e q rs none) (some : ls ++ rs ≠ []) :
    ∃ x p' q' ls' rs', e.takeEl p q = .ok (x, p', q') ∧ Chain e p' ls' none ∧ Chain e q' rs' none ∧
      merge e.before ls rs = x :: merge e.before ls' rs' ∧ (x :: (ls' ++ rs')).Perm (ls ++ rs) := by
  cases ls with
  | nil =>
    cases rs with
    | nil => exact absurd rfl some
    | cons r rs =>
      obtain rfl := left
      obtain ⟨rfl, _, link, rest⟩ := right
      obtain rfl := Option.some.inj link
      exact ⟨r, none, (e.asgns r).chain, [], rs, rfl, rfl, rest, rfl, List.Perm.refl _⟩
  | cons l ls =>
    obtain ⟨rfl, _, link, restLeft⟩ := left
    obtain rfl := Option.some.inj link
    cases rs with
    | nil =>
      obtain rfl := right
      exact ⟨l, (e.asgns l).chain, none, ls, [], rfl, restLeft, rfl, merge_cons_nil, List.Perm.refl _⟩
    | cons r rs =>
      obtain ⟨rfl, _, link, restRight⟩ := right
      obtain rfl := Option.some.inj link
      by_cases ordered : (e.asgns l).id ≤ (e.asgns r).id
      · refine ⟨l, (e.asgns l).chain, Option.some r, ls, r :: rs, if_pos ordered, restLeft,
          ⟨rfl, _, rfl, restRight⟩, merge_of_lt (decide_eq_true ordered), List.Perm.refl _⟩
      · refine ⟨r, Option.some l, (e.asgns r).chain, l :: ls, rs, if_neg ordered, ⟨rfl, _, rfl, restLeft⟩,
          restRight, merge_of_not_lt (decide_eq_false ordered), ?_⟩
        exact List.perm_middle.symm

theorem sortMerge_spec {n : Nat} (done : Done e first ds) (left : Chain e p ls none) (right : Chain e q rs none)
    (nodup : (ds ++ (ls ++ rs)).Nodup) (length : n = (ls ++ rs).length) :
    ∃ first' e', sortMerge n first ds.getLast? p q e = .ok (first', (ds ++ merge e.before ls rs).getLast?, e') ∧
      Done e' first' (ds ++ merge e.before ls rs) ∧ Rechained e e' (ds ++ (ls ++ rs)) := by
  induction n generalizing e first ds ls rs p q with
  | zero =>
    have empty := List.append_eq_nil_iff.mp (List.length_eq_zero_iff.mp length.symm)
    rw [empty.1, empty.2, merge_nil_left, List.append_nil]
    exact ⟨first, e, rfl, done, Rechained.refl e⟩
  | succ n ih =>
    have some : ls ++ rs ≠ [] := by
      intro empty
      rw [empty] at length
      cases length
    obtain ⟨x, p', q', ls', rs', take, left', right', merged, perm⟩ := takeEl_spec left right some
    have nodup' : (ds ++ (x :: (ls' ++ rs'))).Nodup := (perm.append_left ds).nodup_iff.mpr nodup
    obtain ⟨nodupDs, nodupRest, disjoint⟩ := List.nodup_append.mp nodup'
    have fresh : x ∉ ds := fun inside => disjoint x inside x List.mem_cons_self rfl
    obtain ⟨first', e', append, done', rechained⟩ := appendEl_spec done fresh nodupDs
    have apart : ∀ a ∈ ls' ++ rs', a ∉ ds := fun a inside inDs =>
      disjoint a inDs a (List.mem_cons_of_mem x inside) rfl
    have left'' := (rechained.chain fun a inside => apart a (List.mem_append_left rs' inside)).mpr left'
    have right'' := (rechained.chain fun a inside => apart a (List.mem_append_right ls' inside)).mpr right'
    have step := ih done' left'' right'' (by rw [List.append_assoc]; exact nodup')
      (by
        have counted := perm.length_eq
        rw [← length, List.length_cons] at counted
        exact (Nat.succ.inj counted).symm)
    obtain ⟨first'', e'', result, done'', rechained'⟩ := step
    rw [rechained.before, List.append_assoc, List.singleton_append, ← merged] at result done''
    refine ⟨first'', e'', ?_, done'', ?_⟩
    · unfold sortMerge
      rw [take]
      show sortMerge n (e.appendEl first ds.getLast? x).1 (Option.some x) p' q' (e.appendEl first ds.getLast? x).2 = _
      rw [append]
      rw [List.getLast?_concat] at result
      exact result
    · refine (rechained.mono fun a inside => List.mem_append_left _ inside).trans (rechained'.mono fun a inside => ?_)
      rw [List.append_assoc] at inside
      exact (perm.append_left ds).mem_iff.mp inside

theorem Done.finish (done : Done e first ds) (nodup : ds.Nodup) (last : ds.getLast? = some x) :
    Chain (e.setAssignChain x none) first ds none := by
  induction ds using List.reverseRecOn with
  | nil => cases last
  | append_singleton ds y _ =>
    rw [List.getLast?_concat] at last
    obtain rfl := Option.some.inj last
    have single := rechained_setAssignChain e y none
    refine Segment.concat_iff.mpr ⟨(single.chain fun a inside same => ?_).mpr (done_concat.mp done),
      setAssignChain_links_self⟩
    exact (List.nodup_append.mp nodup).2.2 a inside a same rfl

theorem sortWires_spec {fuel len : Nat} (chain : Chain e p l q) (nodup : l.Nodup) (length : l.length = len)
    (positive : 0 < fuel) (bound : len ≤ fuel) : ∃ first e', sortWires fuel p len e = .ok (first, q, e') ∧
      Chain e' first (mergeSort e.before fuel l) none ∧ Rechained e e' l := by
  induction fuel generalizing e p q l len with
  | zero => exact absurd positive (Nat.lt_irrefl 0)
  | succ fuel ih =>
    unfold sortWires mergeSort
    by_cases zero : len = 0
    · subst zero
      obtain rfl := List.length_eq_zero_iff.mp length
      obtain rfl := chain
      exact ⟨none, e, if_pos rfl, rfl, Rechained.refl e⟩
    rw [if_neg zero]
    by_cases one : len = 1
    · subst one
      obtain ⟨a, rfl⟩ := List.length_eq_one_iff.mp length
      obtain ⟨rfl, r, link, rest⟩ := chain
      obtain rfl := Option.some.inj link
      obtain rfl := rest
      exact ⟨some a, e.setAssignChain a none, if_pos rfl, ⟨rfl, none, setAssignChain_links_self, rfl⟩,
        rechained_setAssignChain e a none⟩
    rw [if_neg one]
    have long : ¬l.length < 2 := by omega
    rw [if_neg long, length]
    have halves : l.take (len / 2) ++ l.drop (len / 2) = l := List.take_append_drop (len / 2) l
    rw [← halves] at chain nodup
    obtain ⟨r, chainLeft, chainRight⟩ := Segment.append_iff.mp chain
    obtain ⟨nodupLeft, nodupRight, disjoint⟩ := List.nodup_append.mp nodup
    have lengthLeft : (l.take (len / 2)).length = len / 2 := by
      rw [List.length_take]
      omega
    have lengthRight : (l.drop (len / 2)).length = len - len / 2 := by
      rw [List.length_drop]
      omega
    obtain ⟨left, e₁, sortedLeft, left₁, rechained₁⟩ := ih chainLeft nodupLeft lengthLeft (by omega) (by omega)
    have chainRight₁ := (rechained₁.chain fun a inside inLeft => disjoint a inLeft a inside rfl).mpr chainRight
    obtain ⟨right, e₂, sortedRight, right₂, rechained₂⟩ := ih chainRight₁ nodupRight lengthRight (by omega) (by omega)
    rw [rechained₁.before] at right₂
    have permLeft := mergeSort_perm e.before fuel (l.take (len / 2))
    have permRight := mergeSort_perm e.before fuel (l.drop (len / 2))
    have left₂ := (rechained₂.chain fun a inside inRight =>
      disjoint a (permLeft.mem_iff.mp inside) a inRight rfl).mpr left₁
    have perm := permLeft.append permRight
    have nodupBoth := perm.nodup_iff.mpr nodup
    have start : Done e₂ none [] := rfl
    obtain ⟨first, e₃, merged, done, rechained₃⟩ :=
      sortMerge_spec (n := len) start left₂ right₂ nodupBoth (by rw [perm.length_eq, halves, length])
    have order : e₂.before = e.before := rechained₂.before.trans rechained₁.before
    rw [order, List.nil_append] at merged done
    have permMerged : (merge e.before (mergeSort e.before fuel (l.take (len / 2)))
        (mergeSort e.before fuel (l.drop (len / 2)))).Perm _ := merge_perm _ _
    cases isLast : (merge e.before (mergeSort e.before fuel (l.take (len / 2)))
        (mergeSort e.before fuel (l.drop (len / 2)))).getLast? with
    | none =>
      have counted := (permMerged.trans perm).length_eq
      rw [List.getLast?_eq_none_iff.mp isLast, halves, length] at counted
      exact absurd counted.symm zero
    | some last =>
      rw [isLast] at merged
      refine ⟨first, e₃.setAssignChain last none, ?_, done.finish (permMerged.nodup_iff.mpr nodupBoth) isLast, ?_⟩
      · rw [sortedLeft]
        show (sortWires fuel r (len - len / 2) e₁ >>= _) = _
        rw [sortedRight]
        show (sortMerge len none none left right e₂ >>= _) = _
        rw [List.getLast?_nil] at merged
        rw [merged]
        rfl
      · have inside : ∀ a ∈ [last], a ∈ l := by
          intro a member
          rw [List.mem_singleton] at member
          subst member
          have inMerged := List.mem_of_getLast? isLast
          have inHalves := (permMerged.trans perm).mem_iff.mp inMerged
          rwa [halves] at inHalves
        have whole : Rechained e e₃ l := by
          refine (rechained₁.mono fun a => List.mem_of_mem_take).trans
            ((rechained₂.mono fun a => List.mem_of_mem_drop).trans (rechained₃.mono fun a member => ?_))
          have inHalves := perm.mem_iff.mp member
          rwa [halves] at inHalves
        exact whole.trans ((rechained_setAssignChain e₃ last none).mono inside)

theorem sortPhi_spec {phi : PhiType} (chain : Chain e phi.first l none) (length : l.length = phi.nbr)
    (distinct : (l.map fun a => (e.asgns a).id).Nodup) :
    ∃ first e' l', e.sortPhi phi = .ok (first, e') ∧ Chain e' first l' none ∧ l'.Perm l ∧
      (l'.Pairwise fun a b => (e.asgns a).id < (e.asgns b).id) ∧ Rechained e e' l := by
  obtain ⟨first, e', sorted, chain', rechained⟩ :=
    sortWires_spec chain chain.nodup length (Nat.succ_pos phi.nbr) (Nat.le_succ phi.nbr)
  have perm := mergeSort_perm e.before (phi.nbr + 1) l
  refine ⟨first, e', _, ?_, chain', perm, ?_, rechained⟩
  · unfold sortPhi
    rw [sorted]
    rfl
  have ordered : (mergeSort e.before (phi.nbr + 1) l).Pairwise fun a b => (e.asgns a).id ≤ (e.asgns b).id :=
    mergeSort_pairwise (fun a b c => Nat.le_trans) (fun a b before => of_decide_eq_true before)
      (fun a b before => Nat.le_of_not_le (of_decide_eq_false before)) (by omega)
  have apart : (mergeSort e.before (phi.nbr + 1) l).Pairwise fun a b => (e.asgns a).id ≠ (e.asgns b).id := by
    have nodup : ((mergeSort e.before (phi.nbr + 1) l).map fun a => (e.asgns a).id).Nodup :=
      (perm.map fun a => (e.asgns a).id).nodup_iff.mpr distinct
    exact List.pairwise_map.mp nodup
  exact ordered.imp₂ (fun a b le ne => Nat.lt_of_le_of_ne le ne) apart

end Env

end Ghdl.Synth
