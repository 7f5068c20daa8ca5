import Ghdl.Psl.QmReduce
import Ghdl.Psl.Sere

/-!
# The limits of the reduction

`Build_Primes` reads a constant without regard to the negations above it, and a set of primes has no more than
`2 ** Max_Terms` members. So `Reduce` keeps the value of an expression over at most `Max_Terms` terms exactly when the
sets of its operands are small enough, and when its value does not depend on whether the negated constants are
complemented.
-/

namespace Ghdl.Psl

namespace BoolNode

/-- The expression as `Build_Primes` reads it: a negated constant is complemented. -/
def asRead : BoolNode → Bool → BoolNode
  | trueNode, negate => if negate then notBool none trueNode else trueNode
  | falseNode, negate => if negate then notBool none falseNode else falseNode
  | hdlExpr expr, _ => hdlExpr expr
  | eos, _ => eos
  | notBool origin boolean, negate => notBool origin (boolean.asRead !negate)
  | andBool origin left right, negate => andBool origin (left.asRead negate) (right.asRead negate)
  | orBool origin left right, negate => orBool origin (left.asRead negate) (right.asRead negate)
  | impBool origin left right, negate => impBool origin (left.asRead !negate) (right.asRead negate)

/-- The terms of an expression. -/
def atoms : BoolNode → Finset BoolNode
  | trueNode | falseNode => ∅
  | hdlExpr expr => {hdlExpr expr}
  | eos => {eos}
  | notBool _ boolean => boolean.atoms
  | andBool _ left right | orBool _ left right | impBool _ left right => left.atoms ∪ right.atoms

theorem polar_asRead (n : BoolNode) (negate : Bool) : (n.asRead negate).Polar negate := by
  induction n generalizing negate with
  | hdlExpr expr | eos => trivial
  | trueNode | falseNode => cases negate <;> rfl
  | notBool origin boolean ih => exact ih (!negate)
  | andBool origin left right ihl ihr | orBool origin left right ihl ihr => exact ⟨ihl negate, ihr negate⟩
  | impBool origin left right ihl ihr => exact ⟨ihl (!negate), ihr negate⟩

end BoolNode

open BoolNode

theorem buildPrimes_asRead (n : BoolNode) (terms : List BoolNode) (negate : Bool) :
    buildPrimes terms (n.asRead negate) negate = buildPrimes terms n negate := by
  induction n generalizing terms negate with
  | hdlExpr expr => rfl
  | eos => rfl
  | trueNode | falseNode => cases negate <;> rfl
  | notBool origin boolean ih => exact ih terms (!negate)
  | andBool origin left right ihl ihr | orBool origin left right ihl ihr =>
    show buildOperands _ _ _ = buildOperands _ _ _
    rw [ihl terms negate, funext fun terms => ihr terms negate]
  | impBool origin left right ihl ihr =>
    show buildOperands _ _ _ = buildOperands _ _ _
    rw [ihl terms (!negate), funext fun terms => ihr terms negate]

/-- The set of two operands is no larger than a set may be. -/
def JoinFits (conjunction : Bool) (l r : List Prime) : Prop :=
  if conjunction then l.length * r.length ≤ maxPrimes else l.length + r.length ≤ maxPrimes

theorem joinPrimes_ok_iff {conjunction : Bool} {l r : List Prime} :
    (∃ ps, joinPrimes conjunction l r = .ok ps) ↔ JoinFits conjunction l r := by
  unfold joinPrimes JoinFits buildPrimesAnd buildPrimesOr
  cases conjunction with
  | true =>
    by_cases large : maxPrimes < l.length * r.length
    · simp [large]
    · simp [large, Nat.not_lt.mp large]
  | false =>
    by_cases large : maxPrimes < l.length + r.length
    · simp [large]
    · simp [large, Nat.not_lt.mp large]

/-- Both operands fit, and so does the set of both. -/
structure OperandsFit (conjunction : Bool) (leftFits : Prop) (left : Outcome (List Prime × List BoolNode))
    (rightFits : List BoolNode → Prop) (right : List BoolNode → Outcome (List Prime × List BoolNode)) : Prop where
  first : leftFits
  second : ∀ l terms, left = .ok (l, terms) → rightFits terms
  joined : ∀ l terms r terms', left = .ok (l, terms) → right terms = .ok (r, terms') → JoinFits conjunction l r

/-- At each operation of the expression, the set of the primes of both operands is no larger than a set may be. -/
def BoolNode.Fits : BoolNode → List BoolNode → Bool → Prop
  | trueNode, _, _ | falseNode, _, _ | hdlExpr _, _, _ | eos, _, _ => True
  | notBool _ boolean, terms, negate => boolean.Fits terms !negate
  | andBool _ left right, terms, negate =>
    OperandsFit (!negate) (left.Fits terms negate) (buildPrimes terms left negate)
      (fun terms => right.Fits terms negate) fun terms => buildPrimes terms right negate
  | orBool _ left right, terms, negate =>
    OperandsFit negate (left.Fits terms negate) (buildPrimes terms left negate)
      (fun terms => right.Fits terms negate) fun terms => buildPrimes terms right negate
  | impBool _ left right, terms, negate =>
    OperandsFit negate (left.Fits terms !negate) (buildPrimes terms left !negate)
      (fun terms => right.Fits terms negate) fun terms => buildPrimes terms right negate

/-- The terms that are numbered, and those of what is left to read, are at most `Max_Terms`. -/
structure Room (all : Finset BoolNode) (terms : List BoolNode) : Prop where
  few : all.card ≤ maxTerms
  inside : ∀ m ∈ terms, m ∈ all
  distinct : terms.Nodup

variable {all : Finset BoolNode} {terms terms' : List BoolNode} {n : BoolNode} {negate : Bool} {ps : List Prime}

theorem Room.termIndex (room : Room all terms) (inside : n ∈ all) :
    ∃ index terms', Psl.termIndex terms n = .ok (index, terms') ∧ Room all terms' := by
  unfold Psl.termIndex
  cases found : terms.idxOf? n with
  | some index => exact ⟨index, terms, rfl, room⟩
  | none =>
    have absent : n ∉ terms := List.idxOf?_eq_none_iff.mp found
    have more : Room all (terms ++ [n]) := by
      refine ⟨room.few, ?_, ?_⟩
      · intro m member
        rcases List.mem_append.mp member with member | member
        · exact room.inside m member
        · exact List.mem_singleton.mp member ▸ inside
      · exact List.nodup_append.mpr ⟨room.distinct, List.nodup_singleton n, fun a member b last => by
          rintro rfl
          exact absent (List.mem_singleton.mp last ▸ member)⟩
    have bound : (terms ++ [n]).length ≤ maxTerms := by
      have subset : (terms ++ [n]).toFinset ⊆ all := fun m member => more.inside m (List.mem_toFinset.mp member)
      rw [← List.toFinset_card_of_nodup more.distinct]
      exact (Finset.card_le_card subset).trans room.few
    rw [List.length_append, List.length_singleton] at bound
    refine ⟨terms.length, terms ++ [n], ?_, more⟩
    exact if_neg (Nat.ne_of_lt bound)

theorem buildOperands_room {conjunction : Bool} {leftFits : Prop} {left : Outcome (List Prime × List BoolNode)}
    {rightFits : List BoolNode → Prop} {right : List BoolNode → Outcome (List Prime × List BoolNode)}
    (first : (leftFits ↔ ∃ result, left = .ok result) ∧ ∀ l terms, left = .ok (l, terms) → Room all terms)
    (second : ∀ terms, Room all terms → (rightFits terms ↔ ∃ result, right terms = .ok result) ∧
      ∀ r terms', right terms = .ok (r, terms') → Room all terms') :
    (OperandsFit conjunction leftFits left rightFits right ↔
        ∃ result, buildOperands conjunction left right = .ok result) ∧
      ∀ ps terms', buildOperands conjunction left right = .ok (ps, terms') → Room all terms' := by
  constructor
  · constructor
    · intro fit
      obtain ⟨⟨l, terms⟩, found⟩ := first.1.mp fit.first
      have room := first.2 l terms found
      obtain ⟨⟨r, terms'⟩, found'⟩ := (second terms room).1.mp (fit.second l terms found)
      obtain ⟨ps, joined⟩ := joinPrimes_ok_iff.mpr (fit.joined l terms r terms' found found')
      refine ⟨(ps, terms'), ?_⟩
      rw [buildOperands, found]
      show (right terms >>= _) = _
      rw [found']
      show (joinPrimes conjunction l r >>= _) = _
      rw [joined]
      rfl
    · rintro ⟨⟨ps, terms'⟩, run⟩
      obtain ⟨l, terms, r, found, found', joined⟩ := buildOperands_run run
      have room := first.2 l terms found
      refine ⟨first.1.mpr ⟨_, found⟩, ?_, ?_⟩
      · intro l₂ terms₂ found₂
        obtain ⟨rfl, rfl⟩ := Prod.mk.inj (Except.ok.inj (found.symm.trans found₂))
        exact (second terms room).1.mpr ⟨_, found'⟩
      intro l₂ terms₂ r₂ terms₃ found₂ found₃
      obtain ⟨rfl, rfl⟩ := Prod.mk.inj (Except.ok.inj (found.symm.trans found₂))
      obtain ⟨rfl, rfl⟩ := Prod.mk.inj (Except.ok.inj (found'.symm.trans found₃))
      exact joinPrimes_ok_iff.mp ⟨ps, joined⟩
  · intro ps terms' run
    obtain ⟨l, terms, r, found, found', -⟩ := buildOperands_run run
    exact (second terms (first.2 l terms found)).2 r terms' found'

theorem buildPrimes_room_atom (room : Room all terms) (member : n ∈ all) (isAtom : buildPrimes terms n negate =
      (Psl.termIndex terms n).map fun found => ([literalPrime negate found.1], found.2)) :
    (True ↔ ∃ result, buildPrimes terms n negate = .ok result) ∧
      ∀ ps terms', buildPrimes terms n negate = .ok (ps, terms') → Room all terms' := by
  obtain ⟨index, after, found, room'⟩ := room.termIndex member
  rw [isAtom, found]
  refine ⟨iff_of_true trivial ⟨_, rfl⟩, ?_⟩
  intro ps terms' same
  exact (Prod.mk.inj (Except.ok.inj same)).2 ▸ room'

/-- `Build_Primes` returns exactly when each set fits, and numbers no more terms than those of the expression. -/
theorem buildPrimes_room (room : Room all terms) (inside : n.atoms ⊆ all) :
    (n.Fits terms negate ↔ ∃ result, buildPrimes terms n negate = .ok result) ∧
      ∀ ps terms', buildPrimes terms n negate = .ok (ps, terms') → Room all terms' := by
  induction n generalizing terms negate with
  | hdlExpr expr | eos => exact buildPrimes_room_atom room (inside (Finset.mem_singleton_self _)) rfl
  | trueNode | falseNode =>
    refine ⟨iff_of_true trivial ⟨_, rfl⟩, ?_⟩
    intro ps terms' same
    exact (Prod.mk.inj (Except.ok.inj same)).2 ▸ room
  | notBool origin boolean ih => exact ih room inside
  | andBool origin left right ihl ihr | orBool origin left right ihl ihr
  | impBool origin left right ihl ihr =>
    have parts := Finset.union_subset_iff.mp inside
    exact buildOperands_room (ihl room parts.1) fun terms room => ihr room parts.2

/-- `Reduce` returns the value of what is read. -/
theorem Tables.reduce_asRead {t t' : Tables} {reduced : BoolNode} (known : TermsOk t.terms)
    (run : t.reduce n = .ok (reduced, t')) (letter : Valuation) :
    reduced.eval letter = (n.asRead false).eval letter := by
  have read : t.reduce (n.asRead false) = .ok (reduced, t') := by
    rw [← run]
    unfold Tables.reduce
    rw [buildPrimes_asRead]
  exact (Tables.reduce_spec known (polar_asRead n false) read).1 letter

end Ghdl.Psl
