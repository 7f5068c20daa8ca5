import Mathlib

/-!
# Preemption of projected output waveforms

LRM93 8.4.1 describes the effect of a signal assignment on a driver's projected output waveform
by marking transactions and deleting the unmarked ones. This module states that description,
`Marked` and `survivors`, for transactions of any type `τ` with times in any linear order, and
gives its closed form, `survivors_eq`: the old transactions before the rejection window, the run
of transactions at the end of the window equal to the first new one, and the new transactions.

`same` compares value components. It need not be reflexive: a NaN has a value component that
equals nothing.
-/

namespace Projected

variable {τ T : Type*} [LinearOrder T] (time : τ → T) (same : τ → τ → Bool)

/-- A projected output waveform: the transaction that determines the current value of the
driver, then the transactions projected to occur, at strictly increasing times. -/
structure Waveform where
  /-- The transaction that determines the current value. -/
  current : τ
  /-- The transactions projected to occur. -/
  pending : List τ
  /-- Each is projected to occur later than the one before it. -/
  ascending : pending.Pairwise fun earlier later => time earlier < time later

/-- The marking rules for an inertial delay, over the positions of the waveform `old ++ new`
after step 1 deleted the preempted transactions. `limit` is the time of the first new
transaction minus the pulse rejection limit. -/
inductive Marked (limit : T) (old new : List τ) : Nat → Prop
  /-- All of the new transactions are marked. -/
  | new {i : Nat} (inside : i < (old ++ new).length) (fresh : old.length ≤ i) :
      Marked limit old new i
  /-- An old transaction is marked if it is projected to occur before the limit. -/
  | early {i : Nat} (inside : i < old.length) (before : time old[i] < limit) :
      Marked limit old new i
  /-- An old transaction is marked if it immediately precedes a marked transaction and its value
  component is the same as that of the marked transaction. -/
  | precedes {i : Nat} (inside : i < old.length) (inside' : i + 1 < (old ++ new).length)
      (next : Marked limit old new (i + 1))
      (equal : same old[i] (old ++ new)[i + 1] = true) : Marked limit old new i

open Classical in
/-- The elements of a list at the positions where a predicate holds. -/
noncomputable def keepAt (keep : Nat → Prop) : List τ → List τ
  | [] => []
  | a :: l => (if keep 0 then [a] else []) ++ keepAt (fun i => keep (i + 1)) l

/-- All unmarked transactions are deleted from the projected output waveform. -/
noncomputable def survivors (limit : T) (old new : List τ) : List τ :=
  keepAt (Marked time same limit old new) (old ++ new)

variable {time same}

theorem marked_succ {limit : T} {first : τ} {old new : List τ} {i : Nat} :
    Marked time same limit (first :: old) new (i + 1) ↔ Marked time same limit old new i := by
  constructor
  · intro marked
    generalize place : i + 1 = position at marked
    induction marked generalizing i with
    | new inside fresh =>
      subst place
      simp only [List.cons_append, List.length_cons, Nat.add_lt_add_iff_right] at inside
      exact .new inside (by simpa using fresh)
    | early inside before =>
      subst place
      exact .early (by simpa using inside) (by simpa using before)
    | precedes inside inside' _ equal ih =>
      subst place
      exact .precedes (by simpa using inside) (by simpa using inside') (ih rfl) (by simpa using equal)
  · intro marked
    induction marked with
    | new inside fresh => exact .new (by simpa using inside) (by simpa using fresh)
    | early inside before => exact .early (by simpa using inside) (by simpa using before)
    | precedes inside inside' _ equal ih =>
      exact .precedes (by simpa using inside) (by simpa using inside') ih (by simpa using equal)

/-- The first transaction of an old waveform is marked when it occurs before the limit, or when
its successor is marked and has the same value. -/
theorem marked_zero {limit : T} {first : τ} {old new : List τ} (some : 0 < (old ++ new).length) :
    Marked time same limit (first :: old) new 0 ↔ time first < limit ∨
        Marked time same limit old new 0 ∧ same first (old ++ new)[0] = true := by
  constructor
  · intro marked
    cases marked with
    | new _ fresh => simp at fresh
    | early _ before => exact .inl before
    | precedes _ _ next equal => exact .inr ⟨marked_succ.mp next, equal⟩
  · rintro (before | ⟨next, equal⟩)
    · exact .early (by simp) before
    · exact .precedes (by simp) (by simpa using some) (marked_succ.mpr next) equal

open Classical in
theorem survivors_cons (limit : T) (first : τ) (old new : List τ) : survivors time same limit (first :: old) new =
      (if Marked time same limit (first :: old) new 0 then [first] else []) ++ survivors time same limit old new := by
  simp only [survivors, List.cons_append, keepAt, marked_succ]

theorem keepAt_all {keep : Nat → Prop} {l : List τ} (all : ∀ i < l.length, keep i) : keepAt keep l = l := by
  induction l generalizing keep with
  | nil => rfl
  | cons a l ih =>
    rw [keepAt, if_pos (all 0 (by simp)), ih fun i inside => all (i + 1) (by simpa using inside)]
    rfl

theorem keepAt_sublist (keep : Nat → Prop) (l : List τ) : (keepAt keep l).Sublist l := by
  induction l generalizing keep with
  | nil => exact List.Sublist.refl _
  | cons a l ih =>
    unfold keepAt
    split
    · exact (ih _).cons_cons a
    · exact (ih _).cons a

theorem survivors_nil (limit : T) (new : List τ) : survivors time same limit [] new = new :=
  keepAt_all fun _ inside => .new inside (Nat.zero_le _)

/-- Where no transaction occurs before the limit, the first is marked exactly when every old one
has the value of the first new one. -/
theorem marked_window (symm : ∀ a b, same a b = true → same b a = true)
    (trans : ∀ a b c, same a b = true → same b c = true → same a c = true)
    {limit : T} {old : List τ} (late : ∀ t ∈ old, limit ≤ time t) (first : τ) (rest : List τ) :
    Marked time same limit old (first :: rest) 0 ↔ ∀ t ∈ old, same t first = true := by
  induction old with
  | nil =>
    simp only [List.not_mem_nil, false_implies, implies_true, iff_true]
    exact .new (by simp) (Nat.zero_le 0)
  | cons a old ih =>
    have tail := ih fun t inside => late t (List.mem_cons_of_mem a inside)
    rw [marked_zero (by simp only [List.length_append, List.length_cons]; omega), tail]
    have inWindow : ¬time a < limit := not_lt.mpr (late a List.mem_cons_self)
    simp only [inWindow, false_or, List.forall_mem_cons]
    cases old with
    | nil => simp
    | cons b old =>
      simp only [List.forall_mem_cons, List.cons_append, List.getElem_cons_zero]
      constructor
      · rintro ⟨⟨hb, ho⟩, hab⟩
        exact ⟨trans _ _ _ hab hb, hb, ho⟩
      · rintro ⟨ha, hb, ho⟩
        exact ⟨⟨hb, ho⟩, trans _ _ _ ha (symm _ _ hb)⟩

theorem rtakeWhile_cons (p : τ → Bool) (a : τ) (l : List τ) :
    (a :: l).rtakeWhile p = if ∀ t ∈ a :: l, p t = true then a :: l else l.rtakeWhile p := by
  split
  · rename_i all
    exact List.rtakeWhile_eq_self_iff.mpr all
  · rename_i notAll
    induction l using List.reverseRecOn with
    | nil =>
      have hp : ¬p a = true := by simpa using notAll
      simp [List.rtakeWhile, hp]
    | append_singleton l b ih =>
      rw [← List.cons_append]
      by_cases hb : p b = true
      · rw [List.rtakeWhile_concat_pos _ _ _ hb, List.rtakeWhile_concat_pos _ _ _ hb, ih]
        simpa [hb] using notAll
      · rw [List.rtakeWhile_concat_neg _ _ _ hb, List.rtakeWhile_concat_neg _ _ _ hb]

theorem rtakeWhile_append_cons_neg (p : τ → Bool) (l m : List τ) {a : τ} (stops : ¬p a = true) :
    (l ++ a :: m).rtakeWhile p = m.rtakeWhile p := by
  induction m using List.reverseRecOn with
  | nil => rw [List.rtakeWhile_concat_neg _ _ _ stops]; rfl
  | append_singleton m b ih =>
    rw [← List.cons_append, ← List.append_assoc]
    by_cases hb : p b = true
    · rw [List.rtakeWhile_concat_pos _ _ _ hb, List.rtakeWhile_concat_pos _ _ _ hb, ih]
    · rw [List.rtakeWhile_concat_neg _ _ _ hb, List.rtakeWhile_concat_neg _ _ _ hb]

theorem survivors_eq (symm : ∀ a b, same a b = true → same b a = true)
    (trans : ∀ a b c, same a b = true → same b c = true → same a c = true) (limit : T) (old : List τ)
    (ascending : old.Pairwise fun earlier later => time earlier < time later) (first : τ) (rest : List τ) :
    survivors time same limit old (first :: rest) = old.filter (fun t => time t < limit) ++
        (old.filter fun t => limit ≤ time t).rtakeWhile (fun t => same t first) ++ first :: rest := by
  induction old with
  | nil => simp [survivors_nil]
  | cons a old ih =>
    rw [survivors_cons, ih (List.pairwise_cons.mp ascending).2]
    by_cases before : time a < limit
    · have marked : Marked time same limit (a :: old) (first :: rest) 0 := .early (by simp) before
      simp [marked, before, not_le.mpr before]
    -- From the first transaction in the window on, no transaction is early.
    have late : ∀ t ∈ a :: old, limit ≤ time t := by
      intro t inside
      rcases List.mem_cons.mp inside with rfl | inside
      · exact not_lt.mp before
      · exact (not_lt.mp before).trans ((List.pairwise_cons.mp ascending).1 t inside).le
    have early : ∀ l : List τ, l ⊆ a :: old → l.filter (fun t => time t < limit) = [] :=
      fun l sub => List.filter_eq_nil_iff.mpr fun t inside => by
        simpa using late t (sub inside)
    have window : ∀ l : List τ, l ⊆ a :: old → l.filter (fun t => limit ≤ time t) = l :=
      fun l sub => List.filter_eq_self.mpr fun t inside => by
        simpa using late t (sub inside)
    have tail : old ⊆ a :: old := List.subset_cons_self a old
    rw [early _ (List.Subset.refl _), early _ tail, window _ (List.Subset.refl _), window _ tail, rtakeWhile_cons]
    have marked := marked_window symm trans late first rest
    by_cases all : ∀ t ∈ a :: old, same t first = true
    · have run : old.rtakeWhile (fun t => same t first) = old :=
        List.rtakeWhile_eq_self_iff.mpr fun t inside => all t (tail inside)
      rw [if_pos (marked.mpr all), if_pos all, run]
      rfl
    · rw [if_neg fun holds => all (marked.mp holds), if_neg all]
      rfl

namespace Waveform

/-- The projected output waveform after a signal assignment: the transactions at or after the
first new one are deleted, the new ones are appended, and the unmarked ones are deleted. -/
noncomputable def assign (same : τ → τ → Bool) (waveform : Waveform time) (limit : T) (first : τ)
    (rest : List τ)
    (ascending : (first :: rest).Pairwise fun earlier later => time earlier < time later) :
    Waveform time where
  current := waveform.current
  pending := survivors time same limit (waveform.pending.filter fun t => time t < time first)
    (first :: rest)
  ascending := by
    refine List.Pairwise.sublist (keepAt_sublist _ _) (List.pairwise_append.mpr
      ⟨waveform.ascending.filter _, ascending, fun old kept new added => ?_⟩)
    have before : time old < time first := by simpa using (List.mem_filter.mp kept).2
    rcases List.mem_cons.mp added with rfl | added
    · exact before
    · exact before.trans ((List.pairwise_cons.mp ascending).1 new added)

/-- When time reaches the first pending transaction, that transaction becomes the current one. -/
def advance [DecidableEq T] (waveform : Waveform time) (now : T) : Waveform time :=
  match waveform with
  | ⟨current, [], _⟩ => ⟨current, [], .nil⟩
  | ⟨current, next :: pending, ascending⟩ =>
    if time next = now then ⟨next, pending, (List.pairwise_cons.mp ascending).2⟩
    else ⟨current, next :: pending, ascending⟩

end Waveform

end Projected
