import Mathlib.Data.List.Basic

/-!
# Readers of byte streams

A reader takes bytes from the front of a stream, or fails. `Reads` says that it takes exactly the given bytes
for the given result, whatever follows them; `Takes` that it takes at least so many. A loop goes on while bytes
are left: when every iteration takes one, the loop is its first iteration and the loop from there.
-/

namespace Bytes

/-- A computation that takes bytes from the front of a stream. -/
abbrev Reader (ε α : Type) : Type := StateT (List UInt8) (Except ε) α

variable {ε α β σ : Type}

namespace Reader

/-- Fail, whatever the stream is. -/
def fail (e : ε) : Reader ε α := fun _ => .error e

/-- The next byte of the stream, or the error at its end. -/
def byte (eof : ε) : Reader ε UInt8
  | [] => .error eof
  | b :: rest => .ok (b, rest)

/-- The next bytes of the stream, or the error when there are fewer. -/
def take (eof : ε) (count : Nat) : Reader ε (Vector UInt8 count) := fun bytes =>
  if enough : count ≤ bytes.length then
    .ok (⟨(bytes.take count).toArray, by simp [enough]⟩, bytes.drop count)
  else .error eof

/-- No byte is left. -/
def atEnd : Reader ε Bool := fun bytes => .ok (bytes.isEmpty, bytes)

/-- A loop, with at most so many iterations. -/
def iterateFor (exhausted : ε) (step : σ → Reader ε (σ ⊕ α)) : Nat → σ → Reader ε α
  | 0, _ => fail exhausted
  | fuel + 1, s => do
    match ← step s with
    | .inl s => iterateFor exhausted step fuel s
    | .inr a => return a

/-- A loop, with one iteration more than there are bytes. -/
def iterate (exhausted : ε) (step : σ → Reader ε (σ ⊕ α)) (s : σ) : Reader ε α := fun bytes =>
  iterateFor exhausted step (bytes.length + 1) s bytes

theorem bind_apply (read : Reader ε α) (f : α → Reader ε β) (bytes : List UInt8) :
    (read >>= f) bytes = (read bytes >>= fun r => f r.1 r.2) := rfl

@[simp] theorem pure_apply (a : α) (bytes : List UInt8) : (pure a : Reader ε α) bytes = .ok (a, bytes) := rfl

variable {read : Reader ε α} {bytes : List UInt8}

theorem bind_of_ok {rest : List UInt8} {a : α} (ok : read bytes = .ok (a, rest))
    (f : α → Reader ε β) : (read >>= f) bytes = f a rest := by
  rw [bind_apply, ok]
  rfl

theorem bind_of_error {e : ε} (error : read bytes = .error e) (f : α → Reader ε β) : (read >>= f) bytes = .error e := by
  rw [bind_apply, error]
  rfl

theorem bind_ok {f : α → Reader ε β} {rest : List UInt8} {b : β} : (read >>= f) bytes = .ok (b, rest) ↔
      ∃ a between, read bytes = .ok (a, between) ∧ f a between = .ok (b, rest) := by
  rw [bind_apply]
  cases run : read bytes with
  | error e => simp [bind, Except.bind]
  | ok r =>
    constructor
    · intro result
      exact ⟨r.1, r.2, rfl, result⟩
    · intro result
      obtain ⟨a, between, same, result⟩ := result
      obtain rfl := Except.ok.inj same
      exact result

end Reader

/-- The reader takes these bytes, and gives this result. -/
def Reads (read : Reader ε α) (bytes : List UInt8) (a : α) : Prop :=
  ∀ rest, read (bytes ++ rest) = .ok (a, rest)

namespace Reads

theorem pure (a : α) : Reads (pure a : Reader ε α) [] a := fun _ => rfl

variable {f : α → Reader ε β}

theorem bind {read : Reader ε α} {first second : List UInt8} {a : α} {b : β}
    (head : Reads read first a) (tail : Reads (f a) second b) : Reads (read >>= f) (first ++ second) b := by
  intro rest
  rw [List.append_assoc, Reader.bind_of_ok (head (second ++ rest)) f]
  exact tail rest

/-- What is read is changed into the result. -/
theorem map {read : Reader ε α} {bytes : List UInt8} {a : α} (reads : Reads read bytes a) (f : α → β) :
    Reads (read >>= fun a => Pure.pure (f a)) bytes (f a) := by
  intro rest
  rw [Reader.bind_of_ok (reads rest)]
  rfl

theorem byte (eof : ε) (b : UInt8) : Reads (Reader.byte eof) [b] b := fun _ => rfl

theorem take (eof : ε) {count : Nat} (bytes : Vector UInt8 count) :
    Reads (Reader.take eof count) bytes.toList bytes := by
  intro rest
  have size : bytes.toList.length = count := Vector.length_toList
  have enough : count ≤ (bytes.toList ++ rest).length := by
    rw [List.length_append]
    omega
  unfold Reader.take
  rw [dif_pos enough]
  have front : (bytes.toList ++ rest).take count = bytes.toList := List.take_left' size
  have back : (bytes.toList ++ rest).drop count = rest := List.drop_left' size
  simp only [front, back]
  rfl

theorem mapM {γ : Type} {l : List γ} {a : γ → α} {bytes : γ → List UInt8} {b : γ → β}
    (each : ∀ x ∈ l, Reads (f (a x)) (bytes x) (b x)) : Reads ((l.map a).mapM f) (l.flatMap bytes) (l.map b) := by
  induction l with
  | nil =>
    intro rest
    rfl
  | cons x l ih =>
    rw [List.map_cons, List.mapM_cons, List.flatMap_cons, List.map_cons]
    exact (each x List.mem_cons_self).bind ((ih fun y inside => each y (List.mem_cons_of_mem x inside)).map _)

theorem mapM_error {γ : Type} {l : List γ} {a : γ → α} {bytes : γ → List UInt8} {b : γ → β}
    {e : ε} (each : ∀ x ∈ l, (∀ rest, f (a x) rest = .error e) ∨ Reads (f (a x)) (bytes x) (b x))
    (fails : ∃ x ∈ l, ∀ rest, f (a x) rest = .error e) (rest : List UInt8) :
    (l.map a).mapM f (l.flatMap bytes ++ rest) = .error e := by
  induction l with
  | nil =>
    obtain ⟨x, inside, _⟩ := fails
    exact absurd inside List.not_mem_nil
  | cons x l ih =>
    rw [List.map_cons, List.mapM_cons, List.flatMap_cons, List.append_assoc]
    rcases each x List.mem_cons_self with error | reads
    · exact Reader.bind_of_error (error _) _
    have later : ∃ y ∈ l, ∀ rest, f (a y) rest = .error e := by
      obtain ⟨y, inside, error⟩ := fails
      rcases List.mem_cons.mp inside with rfl | inside
      · have both := (reads rest).symm.trans (error _)
        cases both
      · exact ⟨y, inside, error⟩
    rw [Reader.bind_of_ok (reads _)]
    exact Reader.bind_of_error (ih (fun y inside => each y (List.mem_cons_of_mem x inside)) later) _

end Reads

/-- The reader takes at least so many bytes. -/
def Takes (count : Nat) (read : Reader ε α) : Prop :=
  ∀ bytes a rest, read bytes = .ok (a, rest) → rest.length + count ≤ bytes.length

namespace Takes

variable {m n : Nat}

variable {read : Reader ε α}

theorem mono (takes : Takes n read) (less : m ≤ n) : Takes m read := by
  intro bytes a rest run
  have taken := takes bytes a rest run
  omega

theorem pure (a : α) : Takes 0 (pure a : Reader ε α) := by
  intro bytes b rest run
  cases run
  simp

theorem fail (e : ε) : Takes n (Reader.fail e : Reader ε α) := by
  intro bytes b rest run
  cases run

theorem bind {f : α → Reader ε β} (first : Takes m read) (second : ∀ a, Takes n (f a)) :
    Takes (m + n) (read >>= f) := by
  intro bytes b rest run
  obtain ⟨a, between, head, tail⟩ := Reader.bind_ok.mp run
  have before := first bytes a between head
  have after := second a between b rest tail
  omega

theorem map (takes : Takes n read) (f : α → β) : Takes n (read >>= fun a => Pure.pure (f a)) :=
  takes.bind fun a => pure (f a)

theorem byte (eof : ε) : Takes 1 (Reader.byte eof) := by
  intro bytes b rest run
  cases bytes with
  | nil => cases run
  | cons c bytes =>
    cases run
    simp

theorem take (eof : ε) (count : Nat) : Takes count (Reader.take eof count) := by
  intro bytes taken rest run
  by_cases enough : count ≤ bytes.length
  · unfold Reader.take at run
    rw [dif_pos enough] at run
    obtain ⟨_, rfl⟩ := Prod.mk.inj (Except.ok.inj run)
    rw [List.length_drop]
    omega
  · unfold Reader.take at run
    rw [dif_neg enough] at run
    cases run

end Takes

namespace Takes

theorem mapM {γ : Type} {f : γ → Reader ε β} (each : ∀ a, Takes 0 (f a)) (l : List γ) : Takes 0 (l.mapM f) := by
  induction l with
  | nil => exact pure []
  | cons a l ih =>
    rw [List.mapM_cons]
    exact (each a).bind fun b => ih.map _

theorem iterate {exhausted : ε} {step : σ → Reader ε (σ ⊕ α)} (each : ∀ s, Takes 0 (step s)) (s : σ) :
    Takes 0 (Reader.iterate exhausted step s) := by
  have all : ∀ fuel s, Takes 0 (Reader.iterateFor exhausted step fuel s) := by
    intro fuel
    induction fuel with
    | zero => exact fun s => fail exhausted
    | succ fuel ih =>
      intro s
      show Takes (0 + 0) (step s >>= _)
      refine (each s).bind fun next => ?_
      cases next with
      | inl s' => exact ih s'
      | inr a => exact pure a
  exact fun bytes a rest run => all (bytes.length + 1) s bytes a rest run

end Takes

/-- Every iteration of the loop that goes on takes a byte. -/
def Advances (step : σ → Reader ε (σ ⊕ α)) : Prop :=
  ∀ s bytes s' rest, step s bytes = .ok (.inl s', rest) → rest.length < bytes.length

theorem Advances.of_takes {step : σ → Reader ε (σ ⊕ α)} (takes : ∀ s, Takes 1 (step s)) : Advances step :=
  fun s bytes s' rest run => takes s bytes (.inl s') rest run

namespace Reader

variable {exhausted : ε} {step : σ → Reader ε (σ ⊕ α)}

theorem iterateFor_eq (advances : Advances step) {fuel more : Nat} {s : σ} {bytes : List UInt8}
    (enough : bytes.length < fuel) (larger : bytes.length < more) :
    iterateFor exhausted step fuel s bytes = iterateFor exhausted step more s bytes := by
  induction fuel generalizing more s bytes with
  | zero => omega
  | succ fuel ih =>
    obtain ⟨more, rfl⟩ : ∃ m, more = m + 1 := ⟨more - 1, by omega⟩
    unfold iterateFor
    cases run : step s bytes with
    | error e => rw [bind_of_error run, bind_of_error run]
    | ok r =>
      obtain ⟨next, rest⟩ := r
      rw [bind_of_ok run, bind_of_ok run]
      cases next with
      | inr a => rfl
      | inl s' =>
        have shorter := advances s bytes s' rest run
        exact ih (by omega) (by omega)

theorem iterate_eq (advances : Advances step) (s : σ) :
    iterate exhausted step s = (do
      match ← step s with
      | .inl s => iterate exhausted step s
      | .inr a => return a) := by
  funext bytes
  show iterateFor exhausted step (bytes.length + 1) s bytes = _
  unfold iterateFor
  cases run : step s bytes with
  | error e => rw [bind_of_error run, bind_of_error run]
  | ok r =>
    obtain ⟨next, rest⟩ := r
    rw [bind_of_ok run, bind_of_ok run]
    cases next with
    | inr a => rfl
    | inl s' => exact iterateFor_eq advances (advances s bytes s' rest run) (Nat.lt_succ_self _)

theorem iterate_invariant (inv : σ → Prop) {post : α → Prop} {s : σ} {bytes rest : List UInt8} {a : α}
    (result : iterate exhausted step s bytes = .ok (a, rest)) (base : inv s)
    (goes : ∀ s bytes s' rest, inv s → step s bytes = .ok (.inl s', rest) → inv s')
    (ends : ∀ s bytes a rest, inv s → step s bytes = .ok (.inr a, rest) → post a) : post a := by
  have all : ∀ fuel s bytes, inv s → iterateFor exhausted step fuel s bytes = .ok (a, rest) → post a := by
    intro fuel
    induction fuel with
    | zero =>
      intro s bytes _ run
      cases run
    | succ fuel ih =>
      intro s bytes holds run
      obtain ⟨next, between, first, tail⟩ := bind_ok.mp run
      cases next with
      | inl s' => exact ih s' between (goes s bytes s' between holds first) tail
      | inr b =>
        obtain ⟨rfl, rfl⟩ := Prod.mk.inj (Except.ok.inj tail)
        exact ends s bytes b between holds first
  exact all (bytes.length + 1) s bytes base result

end Reader

namespace Reads

variable {exhausted : ε} {step : σ → Reader ε (σ ⊕ α)}

theorem iterate_done (advances : Advances step) {s : σ} {a : α} {bytes : List UInt8}
    (reads : Reads (step s) bytes (.inr a)) : Reads (Reader.iterate exhausted step s) bytes a := by
  rw [Reader.iterate_eq advances]
  intro rest
  rw [Reader.bind_of_ok (reads rest)]
  rfl

theorem iterate_next (advances : Advances step) {s s' : σ} {a : α} {bytes more : List UInt8}
    (reads : Reads (step s) bytes (.inl s')) (rest : Reads (Reader.iterate exhausted step s') more a) :
    Reads (Reader.iterate exhausted step s) (bytes ++ more) a := by
  rw [Reader.iterate_eq advances]
  exact reads.bind rest

end Reads

end Bytes
