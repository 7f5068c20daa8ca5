import Ghdl.Psl.HashTable
import Ghdl.Psl.Nodes

/-!
# Sharing of boolean nodes

The nodes of the table denote the boolean expressions of `Psl.Nodes`. On the chains of the hash table two nodes
never have the same kind and operands, so two nodes are one exactly when they denote the same expression; a
constructor of the table returns the node of what the constructor on expressions returns. What is parsed between
the calls may take and free nodes, as long as it leaves alone the hash table and the nodes it leads to.
-/

namespace Ghdl.Psl.Cse

open Linked

/-- The node is on the chain of a hash value. -/
def Chained (s : State) (n : Nat) : Prop :=
  ∃ i l, Visits s.getHashLink nullNode (s.hashTable i) l ∧ n ∈ l

/-- The origin of a node: the nodes on the chains are shared, each other one is told by its number. -/
def HasOrigin (s : State) (n : Nat) (origin : Option Nat) : Prop :=
  (Chained s n ∧ origin = none) ∨ (¬ Chained s n ∧ origin = some n)

/-- The node is the root of a boolean expression. -/
inductive Denotes (s : State) : Nat → BoolNode → Prop
  | hdlExpr {n : Nat} (kind : s.getKind n = .hdlExpr) : Denotes s n (.hdlExpr n)
  | eos (kind : s.getKind eosNode = .eos) : Denotes s eosNode .eos
  | trueNode (kind : s.getKind trueNode = .trueNode) : Denotes s trueNode .trueNode
  | falseNode (kind : s.getKind falseNode = .falseNode) : Denotes s falseNode .falseNode
  | notBool {n : Nat} {origin : Option Nat} {a : BoolNode} (kind : s.getKind n = .notBool)
      (from' : HasOrigin s n origin) (boolean : Denotes s (s.getBoolean n) a) : Denotes s n (.notBool origin a)
  | andBool {n : Nat} {origin : Option Nat} {a b : BoolNode} (kind : s.getKind n = .andBool)
      (from' : HasOrigin s n origin) (left : Denotes s (s.getLeft n) a) (right : Denotes s (s.getRight n) b) :
      Denotes s n (.andBool origin a b)
  | orBool {n : Nat} {origin : Option Nat} {a b : BoolNode} (kind : s.getKind n = .orBool)
      (from' : HasOrigin s n origin) (left : Denotes s (s.getLeft n) a) (right : Denotes s (s.getRight n) b) :
      Denotes s n (.orBool origin a b)
  | impBool {n : Nat} {origin : Option Nat} {a b : BoolNode} (kind : s.getKind n = .impBool)
      (from' : HasOrigin s n origin) (left : Denotes s (s.getLeft n) a) (right : Denotes s (s.getRight n) b) :
      Denotes s n (.impBool origin a b)

/-- The node has this truth value. -/
def HasValue (s : State) (letter : Valuation) (n : Nat) (value : Bool) : Prop :=
  ∃ t, Denotes s n t ∧ t.eval letter = value

namespace Call

/-- The operands of the call denote expressions, and the constructor on expressions makes this one of them. -/
def Reads (s : State) : Call → BoolNode → Prop
  | buildAnd l r, t => ∃ a b, Denotes s l a ∧ Denotes s r b ∧ t = Psl.buildBoolAnd a b
  | buildOr l r, t => ∃ a b, Denotes s l a ∧ Denotes s r b ∧ t = Psl.buildBoolOr a b
  | buildNot n, t => ∃ a, Denotes s n a ∧ t = Psl.buildBoolNot a

/-- The conjunction, the disjunction or the negation of the values of the operands. -/
def Value (s : State) (letter : Valuation) : Call → Bool → Prop
  | buildAnd l r, value => ∃ a b, HasValue s letter l a ∧ HasValue s letter r b ∧ value = (a && b)
  | buildOr l r, value => ∃ a b, HasValue s letter l a ∧ HasValue s letter r b ∧ value = (a || b)
  | buildNot n, value => ∃ a, HasValue s letter n a ∧ value = !a

end Call

variable {s s' : State} {n m : Nat} {t u : BoolNode} {origin origin' : Option Nat} {call : Call}

theorem HasOrigin.unique (first : HasOrigin s n origin) (second : HasOrigin s n origin') : origin = origin' := by
  rcases first with ⟨on, isNone⟩ | ⟨off, isSome⟩
  · rcases second with ⟨-, again⟩ | ⟨off, -⟩
    · rw [isNone, again]
    · exact absurd on off
  · rcases second with ⟨on, -⟩ | ⟨-, again⟩
    · exact absurd on off
    · rw [isSome, again]

theorem Denotes.unique (first : Denotes s n t) (second : Denotes s n u) : t = u := by
  induction first generalizing u with
  | hdlExpr kind | eos kind | trueNode kind | falseNode kind => cases second <;> simp_all
  | notBool kind origin boolean ih =>
    cases second with
    | notBool kind' origin' boolean' => rw [origin.unique origin', ih boolean']
    | _ => simp_all
  | andBool kind origin left right ihl ihr | orBool kind origin left right ihl ihr
  | impBool kind origin left right ihl ihr =>
    cases second <;> try (simp_all; done)
    next kind' origin' left' right' => rw [origin.unique origin', ihl left', ihr right']

theorem Denotes.kind_ne_error (denotes : Denotes s n t) : s.getKind n ≠ .error := by
  cases denotes <;> simp_all

/-- The list of free nodes: each one is in the table, and nothing but errors lies behind the table. -/
structure FreeList (s : State) (free : List Nat) : Prop where
  visits : Visits s.getLeft nullNode s.freeNodes free
  error : ∀ n ∈ free, s.getKind n = .error
  allocated : ∀ n ∈ free, n ≤ s.last
  behind : ∀ n, s.last < n → s.getKind n = .error

/-- What holds between the calls of the constructors. -/
structure Consistent (s : State) : Prop where
  falseNode : s.getKind falseNode = .falseNode
  trueNode : s.getKind trueNode = .trueNode
  eosNode : s.getKind eosNode = .eos
  /-- Each chain ends. -/
  chain : ∀ i, ∃ l, Visits s.getHashLink nullNode (s.hashTable i) l
  /-- Each node of a chain was made for a call with the hash value of the chain. -/
  made : ∀ n, Chained s n → ∃ call t, (s.nodes n).call = some call ∧ s.getHash n = call.hash s ∧ Denotes s n t
  /-- A node is on the chain of its hash value. -/
  placed : ∀ i l n, Visits s.getHashLink nullNode (s.hashTable i) l → n ∈ l → bucket (s.getHash n) = i
  /-- Two nodes of the chains are never made for one call. -/
  shared : ∀ n m call, Chained s n → Chained s m → (s.nodes n).call = some call → (s.nodes m).call = some call → n = m
  free : ∃ free, FreeList s free

namespace Consistent

section

variable (consistent : Consistent s)
include consistent

theorem one_of_origin (first : HasOrigin s n origin) (second : HasOrigin s m origin)
    (same : (s.nodes n).call = (s.nodes m).call) : n = m := by
  rcases first with ⟨on, isNone⟩ | ⟨-, isSome⟩
  · rcases second with ⟨on', -⟩ | ⟨-, isSome'⟩
    · obtain ⟨call, -, made, -⟩ := consistent.made n on
      exact consistent.shared n m call on on' made (same ▸ made)
    · exact nomatch isNone.symm.trans isSome'
  · rcases second with ⟨-, isNone'⟩ | ⟨-, isSome'⟩
    · exact nomatch isSome.symm.trans isNone'
    · exact Option.some.inj (isSome.symm.trans isSome')

/-- Two nodes that denote the same expression are one node. -/
theorem injective (first : Denotes s n t) (second : Denotes s m t) : n = m := by
  induction first generalizing m with
  | hdlExpr kind | eos kind | trueNode kind | falseNode kind => cases second; rfl
  | @notBool n origin a kind root boolean ih =>
    cases second with
    | notBool kind' root' boolean' =>
      have operand : (s.nodes n).field3 = (s.nodes m).field3 := ih boolean'
      apply consistent.one_of_origin root root'
      unfold NodeRecord.call
      rw [show (s.nodes n).kind = _ from kind, show (s.nodes m).kind = _ from kind']
      exact congrArg (fun operand => some (Call.buildNot operand)) operand
  | @andBool n origin a b kind root left right ihl ihr | @orBool n origin a b kind root left right ihl ihr
  | @impBool n origin a b kind root left right ihl ihr =>
    cases second
    next kind' root' left' right' =>
    have operandL : (s.nodes n).field1 = (s.nodes m).field1 := ihl left'
    have operandR : (s.nodes n).field2 = (s.nodes m).field2 := ihr right'
    apply consistent.one_of_origin root root'
    unfold NodeRecord.call
    simp only [show (s.nodes n).kind = _ from kind, show (s.nodes m).kind = _ from kind', operandL, operandR]

theorem eq_iff (first : Denotes s n t) (second : Denotes s m u) : n = m ↔ t = u := by
  constructor
  · intro same
    exact first.unique (same ▸ second)
  · intro same
    exact consistent.injective first (same ▸ second)

theorem denotes_true : Denotes s Cse.trueNode .trueNode := .trueNode consistent.trueNode

theorem denotes_false : Denotes s Cse.falseNode .falseNode :=
  .falseNode consistent.falseNode

/-- The kinds and the operands that `Is_X_And_Not_X` reads are those of the expressions. -/
theorem isXAndNotX_iff (first : Denotes s n t) (second : Denotes s m u) :
    s.isXAndNotX n m = true ↔ BoolNode.IsXAndNotX t u := by
  have one {n m : Nat} {t u : BoolNode} (first : Denotes s n t) (second : Denotes s m u) :
      (s.getKind n = .notBool ∧ s.getBoolean n = m) ↔ BoolNode.IsNotOf t u := by
    cases first with
    | notBool kind root boolean =>
      rw [consistent.eq_iff boolean second]
      exact ⟨fun ⟨_, same⟩ => same, fun same => ⟨kind, same⟩⟩
    | _ => simp_all [BoolNode.IsNotOf]
  unfold State.isXAndNotX BoolNode.IsXAndNotX
  rw [← one first second, ← one second first]
  simp only [Bool.or_eq_true, Bool.and_eq_true, decide_eq_true_eq]

end

end Consistent

/-- What a simplification returns, if anything, denotes RESULT; when nothing is simplified, RESULT is PLAIN. -/
def Simplifies (s : State) (simple : Option Nat) (result plain : BoolNode) : Prop :=
  (∀ n, simple = some n → Denotes s n result) ∧ (simple = none → result = plain)

namespace Simplifies

variable {x y : Option Nat} {a b plain : BoolNode}

theorem returns (denotes : Denotes s n a) : Simplifies s (some n) a plain :=
  ⟨fun _ same => Option.some.inj same ▸ denotes, fun same => nomatch same⟩

theorem fails : Simplifies s none plain plain := ⟨fun _ same => (nomatch same), fun _ => rfl⟩

theorem ite {c c' : Prop} [Decidable c] [Decidable c'] (same : c ↔ c') (yes : Simplifies s x a plain)
    (no : Simplifies s y b plain) : Simplifies s (if c then x else y) (if c' then a else b) plain := by
  by_cases holds : c
  · rw [if_pos holds, if_pos (same.mp holds)]
    exact yes
  · rw [if_neg holds, if_neg fun holds' => holds (same.mpr holds')]
    exact no

end Simplifies

namespace Consistent

variable {l r : Nat} {a b : BoolNode}

section

variable (consistent : Consistent s)
include consistent

theorem is_true (denotes : Denotes s n t) : n = Cse.trueNode ↔ t = .trueNode :=
  consistent.eq_iff denotes consistent.denotes_true

theorem is_false (denotes : Denotes s n t) : n = Cse.falseNode ↔ t = .falseNode :=
  consistent.eq_iff denotes consistent.denotes_false

theorem simplifyAnd (left : Denotes s l a) (right : Denotes s r b) :
    Simplifies s (simplifyAnd s l r) (Psl.buildBoolAnd a b) (.andBool none a b) := by
  unfold Cse.simplifyAnd Psl.buildBoolAnd
  apply Simplifies.ite (consistent.is_true left) (.returns right)
  apply Simplifies.ite (consistent.is_true right) (.returns left)
  apply Simplifies.ite (or_congr (consistent.is_false left) (consistent.is_false right))
    (.returns consistent.denotes_false)
  apply Simplifies.ite (consistent.eq_iff left right) (.returns left)
  apply Simplifies.ite (consistent.isXAndNotX_iff left right) (.returns consistent.denotes_false)
  cases right with
  | andBool kind root front back =>
    rw [if_pos kind]
    apply Simplifies.ite (consistent.eq_iff left front) (.returns (.andBool kind root front back))
    apply Simplifies.ite (consistent.isXAndNotX_iff left front) (.returns consistent.denotes_false)
    exact .fails
  | hdlExpr kind | eos kind | trueNode kind | falseNode kind | notBool kind | orBool kind
  | impBool kind => rw [if_neg (by simp [kind])]; exact .fails

theorem simplifyOr (left : Denotes s l a) (right : Denotes s r b) :
    Simplifies s (simplifyOr s l r) (Psl.buildBoolOr a b) (.orBool none a b) := by
  unfold Cse.simplifyOr Psl.buildBoolOr
  apply Simplifies.ite (consistent.is_true left) (.returns left)
  apply Simplifies.ite (consistent.is_true right) (.returns right)
  apply Simplifies.ite (consistent.is_false left) (.returns right)
  apply Simplifies.ite (consistent.is_false right) (.returns left)
  apply Simplifies.ite (consistent.eq_iff left right) (.returns left)
  apply Simplifies.ite (consistent.isXAndNotX_iff left right) (.returns consistent.denotes_true)
  exact .fails

theorem simplifyNot (operand : Denotes s n a) :
    Simplifies s (simplifyNot s n) (Psl.buildBoolNot a) (.notBool none a) := by
  have isTrue := consistent.is_true operand
  have isFalse := consistent.is_false operand
  unfold Cse.simplifyNot
  cases operand with
  | trueNode kind =>
    rw [if_pos rfl]
    exact .returns consistent.denotes_false
  | falseNode kind =>
    rw [if_neg (by decide), if_pos rfl]
    exact .returns consistent.denotes_true
  | notBool kind root boolean =>
    rw [if_neg (by simp [isTrue]), if_neg (by simp [isFalse]), if_pos kind]
    exact .returns boolean
  | hdlExpr kind | eos kind | andBool kind | orBool kind | impBool kind =>
    simp only [isTrue, isFalse, kind, reduceCtorEq, if_false]; exact .fails

end

end Consistent

end Ghdl.Psl.Cse
