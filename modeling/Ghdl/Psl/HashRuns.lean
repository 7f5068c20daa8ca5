import Mathlib.Logic.Relation
import Ghdl.Psl.HashCalls

/-!
# Sequences of calls of the constructors

Between the calls, nodes are made, changed and freed, as long as the hash table and the nodes that it leads to are
left alone. So over every sequence of calls, a call returns a node with the truth value of the operation, it returns
it again when it is repeated, and the nodes that are made for two different calls are two nodes.
-/

namespace Ghdl.Psl.Cse

open Linked Relation

variable {s s' s'' : State} {n m res : Nat} {t u : BoolNode} {call other : Call}

/-- The constants, and the nodes that the hash table leads to. -/
inductive Live (s : State) : Nat → Prop
  | falseNode : Live s falseNode
  | trueNode : Live s trueNode
  | eosNode : Live s eosNode
  | chained {n : Nat} (chained : Chained s n) : Live s n
  | operand {n m : Nat} (live : Live s n) (operand : Operand s n m) : Live s m

/-- What is parsed, analysed and rewritten between the calls makes, changes and frees nodes, but for the hash table
and the nodes that it leads to. -/
structure Elsewhere (s s' : State) : Prop where
  hashTable : s'.hashTable = s.hashTable
  live : ∀ n, Live s n → Unchanged (s.nodes n) (s'.nodes n)
  free : ∃ free, FreeList s' free

theorem Live.denotes (consistent : Consistent s) (live : Live s n) : ∃ t, Denotes s n t := by
  induction live with
  | falseNode => exact ⟨_, consistent.denotes_false⟩
  | trueNode => exact ⟨_, consistent.denotes_true⟩
  | eosNode => exact ⟨_, .eos consistent.eosNode⟩
  | chained chained =>
    obtain ⟨-, t, -, -, denotes⟩ := consistent.made _ chained
    exact ⟨t, denotes⟩
  | operand _ operand ih =>
    obtain ⟨t, denotes⟩ := ih
    exact denotes.operand operand

theorem Elsewhere.create (consistent : Consistent s) (kind : Nkind) : Elsewhere s (s.createNode kind).2 := by
  obtain ⟨free, list⟩ := consistent.free
  obtain ⟨res, last', freeNodes', free', creates, -, fresh, list'⟩ := createNode_spec list kind
  rw [creates]
  refine ⟨rfl, fun n live => .of_eq ?_, free', list' _⟩
  obtain ⟨t, denotes⟩ := live.denotes consistent
  have different : n ≠ res := by
    intro same
    exact denotes.kind_ne_error (by rw [same, fresh])
  exact Function.update_of_ne different _ _

namespace Elsewhere

section

variable (elsewhere : Elsewhere s s')
include elsewhere

theorem visits {i : Fin 129} {l : List Nat}
    (visits : Visits s.getHashLink nullNode (s.hashTable i) l) : Visits s'.getHashLink nullNode (s'.hashTable i) l := by
  rw [elsewhere.hashTable]
  refine (Visits.congr fun m inside => ?_).mpr visits
  exact (elsewhere.live m (.chained ⟨i, l, visits, inside⟩)).2.2.1

theorem chained_iff (consistent : Consistent s) : Chained s' n ↔ Chained s n := by
  constructor
  · rintro ⟨i, l', visits', inside⟩
    obtain ⟨l, visits⟩ := consistent.chain i
    rw [visits'.unique (elsewhere.visits visits)] at inside
    exact ⟨i, l, visits, inside⟩
  · rintro ⟨i, l, visits, inside⟩
    exact ⟨i, l, elsewhere.visits visits, inside⟩

theorem denotes (consistent : Consistent s) (live : Live s n) (denotes : Denotes s n t) :
    Denotes s' n t := by
  apply Denotes.transfer (K := Live s) denotes live
  · intro m live
    exact ⟨elsewhere.live m live, elsewhere.chained_iff consistent⟩
  · intro m k live operand
    exact .operand live operand

theorem call_eq (chained : Chained s n) (made : (s.nodes n).call = some call) :
    (s'.nodes n).call = some call := by
  have unchanged := elsewhere.live n (.chained chained)
  have compound : (s.nodes n).kind ≠ .hdlExpr ∧ (s.nodes n).kind ≠ .eos := by
    constructor
    all_goals
      intro kind
      rw [NodeRecord.call, kind] at made
      cases made
  rw [unchanged.compound rfl compound]
  exact made

theorem consistent (before : Consistent s) : Consistent s' where
  falseNode := (elsewhere.live _ .falseNode).1.trans before.falseNode
  trueNode := (elsewhere.live _ .trueNode).1.trans before.trueNode
  eosNode := (elsewhere.live _ .eosNode).1.trans before.eosNode
  chain := by
    intro i
    obtain ⟨l, visits⟩ := before.chain i
    exact ⟨l, elsewhere.visits visits⟩
  made := by
    intro n chained
    have old := (elsewhere.chained_iff before).mp chained
    obtain ⟨call, t, made, hash, denotes⟩ := before.made n old
    refine ⟨call, t, elsewhere.call_eq old made, ?_, elsewhere.denotes before (.chained old) denotes⟩
    have hashes : call.hash s' = call.hash s := by
      apply Call.hash_congr
      intro m inside
      exact (elsewhere.live m (.operand (.chained old) (Call.operand_of_made made m inside))).2.1
    rw [hashes, ← hash]
    exact (elsewhere.live n (.chained old)).2.1
  placed := by
    intro i l' n visits' inside
    obtain ⟨l, visits⟩ := before.chain i
    rw [visits'.unique (elsewhere.visits visits)] at inside
    rw [show s'.getHash n = s.getHash n from (elsewhere.live n (.chained ⟨i, l, visits, inside⟩)).2.1]
    exact before.placed i l n visits inside
  shared := by
    have old {n : Nat} {call : Call} (chained : Chained s n) (made : (s'.nodes n).call = some call) :
        (s.nodes n).call = some call := by
      obtain ⟨other, -, made', -⟩ := before.made n chained
      rw [Option.some.inj (made.symm.trans (elsewhere.call_eq chained made'))]
      exact made'
    intro n m call chainedN chainedM madeN madeM
    have oldN := (elsewhere.chained_iff before).mp chainedN
    have oldM := (elsewhere.chained_iff before).mp chainedM
    exact before.shared n m call oldN oldM (old oldN madeN) (old oldM madeM)
  free := elsewhere.free

end

end Elsewhere

/-- A call of a constructor on boolean expressions, or what happens between two calls. -/
inductive Step (s s' : State) : Prop
  | call (call : Call) (t : BoolNode) (res : Nat) (reads : call.Reads s t)
      (result : call.perform s = some (res, s')) : Step s s'
  | elsewhere (elsewhere : Elsewhere s s') : Step s s'

/-- The nodes that the hash table leads to are kept, with what they denote and the calls they were made for. -/
structure Keeps (s s' : State) : Prop where
  live : ∀ n, Live s n → Live s' n
  denotes : ∀ n t, Live s n → Denotes s n t → Denotes s' n t
  chained : ∀ n call, Chained s n → (s.nodes n).call = some call → Chained s' n ∧ (s'.nodes n).call = some call

theorem Keeps.refl (s : State) : Keeps s s := ⟨fun _ => id, fun _ _ _ => id, fun _ _ chained made => ⟨chained, made⟩⟩

theorem Keeps.trans (first : Keeps s s') (second : Keeps s' s'') : Keeps s s'' where
  live := fun n live => second.live n (first.live n live)
  denotes := fun n t live denotes => second.denotes n t (first.live n live) (first.denotes n t live denotes)
  chained := by
    intro n call chained made
    obtain ⟨chained', made'⟩ := first.chained n call chained made
    exact second.chained n call chained' made'

theorem Operand.unchanged (operand : Operand s n m) (unchanged : Unchanged (s.nodes n) (s'.nodes n)) :
    Operand s' n m := by
  have compound (kinds : s.getKind n = .notBool ∨ s.getKind n = .andBool ∨ s.getKind n = .orBool ∨
      s.getKind n = .impBool) : s'.nodes n = s.nodes n := by
    rcases kinds with kind | kind | kind | kind
    all_goals exact unchanged.compound kind (by decide)
  cases operand with
  | boolean kind =>
    have record := compound (.inl kind)
    rw [← show s'.getBoolean n = s.getBoolean n from congrArg NodeRecord.field3 record]
    exact .boolean ((congrArg NodeRecord.kind record).trans kind)
  | left kind =>
    have record := compound (.inr kind)
    rw [← show s'.getLeft n = s.getLeft n from congrArg NodeRecord.field1 record]
    apply Operand.left
    rw [show s'.getKind n = s.getKind n from congrArg NodeRecord.kind record]
    exact kind
  | right kind =>
    have record := compound (.inr kind)
    rw [← show s'.getRight n = s.getRight n from congrArg NodeRecord.field2 record]
    apply Operand.right
    rw [show s'.getKind n = s.getKind n from congrArg NodeRecord.kind record]
    exact kind

theorem Makes.keeps (makes : Makes s s' call res) (consistent : Consistent s) : Keeps s s' where
  live := by
    intro n live
    induction live with
    | falseNode => exact .falseNode
    | trueNode => exact .trueNode
    | eosNode => exact .eosNode
    | chained chained => exact .chained ((makes.chained_iff consistent).mpr (.inl chained))
    | @operand n m live operand ih =>
      obtain ⟨t, denotes⟩ := live.denotes consistent
      have same := makes.nodes_of_ne (makes.ne_res denotes)
      exact .operand ih (operand.unchanged (.of_eq same))
  denotes := fun _ _ _ => makes.denotes consistent
  chained := by
    intro n other chained made
    refine ⟨(makes.chained_iff consistent).mpr (.inl chained), ?_⟩
    rw [makes.nodes_of_ne (makes.chained_ne consistent chained)]
    exact made

theorem Elsewhere.keeps (elsewhere : Elsewhere s s') (consistent : Consistent s) : Keeps s s' where
  live := by
    intro n live
    induction live with
    | falseNode => exact .falseNode
    | trueNode => exact .trueNode
    | eosNode => exact .eosNode
    | chained chained => exact .chained ((elsewhere.chained_iff consistent).mpr chained)
    | operand live operand ih => exact .operand ih (operand.unchanged (elsewhere.live _ live))
  denotes := fun _ _ => elsewhere.denotes consistent
  chained := fun _ _ chained made => ⟨(elsewhere.chained_iff consistent).mpr chained, elsewhere.call_eq chained made⟩

theorem Step.keeps (step : Step s s') (consistent : Consistent s) : Consistent s' ∧ Keeps s s' := by
  cases step with
  | call call t res reads result =>
    obtain ⟨res', after, result', consistent', -, -, change, -⟩ := perform_spec consistent reads
    obtain ⟨rfl, rfl⟩ := Prod.mk.inj (Option.some.inj (result.symm.trans result'))
    refine ⟨consistent', ?_⟩
    rcases change with rfl | makes
    · exact .refl _
    · exact makes.keeps consistent
  | elsewhere elsewhere => exact ⟨elsewhere.consistent consistent, elsewhere.keeps consistent⟩

theorem run_keeps (run : ReflTransGen Step s s') (consistent : Consistent s) : Consistent s' ∧ Keeps s s' := by
  induction run with
  | refl => exact ⟨consistent, .refl s⟩
  | tail _ step ih =>
    obtain ⟨consistent', keeps⟩ := step.keeps ih.1
    exact ⟨consistent', ih.2.trans keeps⟩

theorem consistent_initialState : Consistent initialState := by
  have empty {n : Nat} (chained : Chained initialState n) : False := by
    obtain ⟨i, l, visits, inside⟩ := chained
    cases l with
    | nil => cases inside
    | cons a l => exact visits.2.1 visits.1.symm
  constructor
  · rfl
  · rfl
  · rfl
  · exact fun i => ⟨[], rfl⟩
  · exact fun n chained => (empty chained).elim
  · exact fun i l n visits inside => (empty ⟨i, l, visits, inside⟩).elim
  · exact fun n m call chained => (empty chained).elim
  · refine ⟨[], rfl, fun n inside => (nomatch inside), fun n inside => (nomatch inside), ?_⟩
    intro n behind
    have past : 4 < n := behind
    show (initialState.nodes n).kind = .error
    unfold initialState
    simp only [show n ≠ 1 by omega, show n ≠ 2 by omega, show n ≠ 3 by omega, show n ≠ 4 by omega, if_false]
    rfl

theorem Keeps.root_eq (keeps : Keeps s s') (consistent : Consistent s') (before : Denotes s n t)
    (after : Denotes s' m t) : n = m := by
  have one {origin : Option Nat} (root : HasOrigin s n origin) (root' : HasOrigin s' m origin) : n = m := by
    rcases root with ⟨on, isNone⟩ | ⟨-, isSome⟩
    · exact consistent.injective (keeps.denotes n t (.chained on) before) after
    · rcases root' with ⟨-, isNone'⟩ | ⟨-, isSome'⟩
      · exact nomatch isSome.symm.trans isNone'
      · exact Option.some.inj (isSome.symm.trans isSome')
  cases before with
  | hdlExpr kind | eos kind | trueNode kind | falseNode kind => cases after; rfl
  | notBool kind root _ =>
    cases after with
    | notBool _ root' _ => exact one root root'
  | andBool kind root _ _ =>
    cases after with
    | andBool _ root' _ _ => exact one root root'
  | orBool kind root _ _ =>
    cases after with
    | orBool _ root' _ _ => exact one root root'
  | impBool kind root _ _ =>
    cases after with
    | impBool _ root' _ _ => exact one root root'

theorem Call.Plain.chained (plain : call.Plain s t) (denotes : Denotes s' n t) : Chained s' n := by
  have shared (root : HasOrigin s' n none) : Chained s' n := by
    rcases root with ⟨on, -⟩ | ⟨-, isSome⟩
    · exact on
    · exact nomatch isSome
  cases call with
  | buildAnd l r =>
    obtain ⟨a, b, -, -, rfl⟩ := plain
    cases denotes with
    | andBool _ root _ _ => exact shared root
  | buildOr l r =>
    obtain ⟨a, b, -, -, rfl⟩ := plain
    cases denotes with
    | orBool _ root _ _ => exact shared root
  | buildNot n =>
    obtain ⟨a, -, rfl⟩ := plain
    cases denotes with
    | notBool _ root _ => exact shared root

theorem Call.Reads.value_iff (reads : call.Reads s t) (denotes : Denotes s' res t) (letter : Valuation)
    (value : Bool) : HasValue s' letter res value ↔ call.Value s letter value := by
  have result : HasValue s' letter res value ↔ value = t.eval letter := by
    constructor
    · rintro ⟨u, denotes', rfl⟩
      rw [denotes.unique denotes']
    · rintro rfl
      exact ⟨t, denotes, rfl⟩
  rw [result]
  cases call with
  | buildAnd l r | buildOr l r =>
    obtain ⟨a, b, left, right, rfl⟩ := reads
    simp only [eval_buildBoolAnd, eval_buildBoolOr]
    constructor
    · rintro rfl
      exact ⟨_, _, ⟨a, left, rfl⟩, ⟨b, right, rfl⟩, rfl⟩
    · rintro ⟨_, _, ⟨a', left', rfl⟩, ⟨b', right', rfl⟩, rfl⟩
      rw [left.unique left', right.unique right']
  | buildNot n =>
    obtain ⟨a, operand, rfl⟩ := reads
    rw [eval_buildBoolNot]
    constructor
    · rintro rfl
      exact ⟨_, ⟨a, operand, rfl⟩, rfl⟩
    · rintro ⟨_, ⟨a', operand', rfl⟩, rfl⟩
      rw [operand.unique operand']

theorem perform_again (keeps : Keeps s s') (consistent : Consistent s') (denotes : Denotes s res t)
    (reads : call.Reads s' t) : call.perform s' = some (res, s') := by
  obtain ⟨res', after, result, consistent', denotes', -, change, made⟩ := perform_spec consistent reads
  rcases change with rfl | makes
  · rw [result, keeps.root_eq consistent' denotes denotes']
  -- A node that was made is on a chain, so it was on one before.
  exfalso
  have plain : call.simplify s' = none := by
    cases simplified : call.simplify s' with
    | none => rfl
    | some n =>
      have same := (Prod.mk.inj (Option.some.inj (result.symm.trans (Call.perform_simplified simplified)))).2
      exact absurd ((makes.chained_iff consistent).mpr (.inr rfl)) fun chained =>
        makes.chained_ne consistent (same ▸ chained) rfl
  have old : Chained s res := ((Call.simplify_spec consistent reads).2 plain).chained denotes
  have kept := keeps.denotes res t (.chained old) denotes
  have same : res' = res := consistent'.injective denotes' (makes.denotes consistent kept)
  exact makes.ne_res kept same.symm

/-- After every sequence of calls, a call on boolean expressions returns a node whose truth value is the conjunction,
the disjunction or the negation of those of its operands, and no other node changes its value. From then on the same
call returns the same node without making one, and a call that is not simplified never returns a node that was made
for other operands. -/
theorem constructors_share (run : ReflTransGen Step initialState s) (reads : call.Reads s t) :
    ∃ res s₁, call.perform s = some (res, s₁) ∧
      (∀ letter value, HasValue s₁ letter res value ↔ call.Value s letter value) ∧
      (∀ letter n value, HasValue s letter n value → HasValue s₁ letter n value) ∧ ∀ s₂, ReflTransGen Step s₁ s₂ →
        (call.Reads s₂ t → call.perform s₂ = some (res, s₂)) ∧
        ∀ other u res' s₃, other.Reads s₂ u → other.perform s₂ = some (res', s₃) →
          call.simplify s = none → other.simplify s₂ = none → (res' = res ↔ other = call) := by
  obtain ⟨consistent, -⟩ := run_keeps run consistent_initialState
  obtain ⟨res, s₁, result, consistent₁, denotes, frame, -, made⟩ := perform_spec consistent reads
  refine ⟨res, s₁, result, reads.value_iff denotes, ?_, ?_⟩
  · rintro letter n value ⟨u, denotes', rfl⟩
    exact ⟨u, frame n u denotes', rfl⟩
  intro s₂ later
  obtain ⟨consistent₂, keeps⟩ := run_keeps later consistent₁
  refine ⟨perform_again keeps consistent₂ denotes, ?_⟩
  intro other u res' s₃ reads' result' plainCall plainOther
  obtain ⟨res₂, state₂, result₂, consistent₃, -, -, -, made'⟩ := perform_spec consistent₂ reads'
  obtain ⟨rfl, rfl⟩ := Prod.mk.inj (Option.some.inj (result'.symm.trans result₂))
  obtain ⟨chained', call'⟩ := made' plainOther
  obtain ⟨-, last⟩ := (Step.call other u res' reads' result').keeps consistent₂
  obtain ⟨chained₁, call₁⟩ := made plainCall
  obtain ⟨chained, here⟩ := (keeps.trans last).chained res call chained₁ call₁
  constructor
  · rintro rfl
    exact Option.some.inj (call'.symm.trans here)
  · rintro rfl
    exact consistent₃.shared res' res other chained' chained call' here

/-- Two expressions are read, and their conjunction is built. -/
theorem constructors_share_and : ∃ s, ReflTransGen Step initialState s ∧ ∃ res s₁,
    (Call.buildAnd 5 6).perform s = some (res, s₁) ∧
      ∀ letter value, HasValue s₁ letter res value ↔ (Call.buildAnd 5 6).Value s letter value := by
  have first : Elsewhere initialState (initialState.createNode .hdlExpr).2 :=
    Elsewhere.create consistent_initialState .hdlExpr
  have second := Elsewhere.create (first.consistent consistent_initialState) .hdlExpr
  have run := (ReflTransGen.single (Step.elsewhere first)).tail (Step.elsewhere second)
  have reads : (Call.buildAnd 5 6).Reads ((initialState.createNode .hdlExpr).2.createNode .hdlExpr).2
      (Psl.buildBoolAnd (.hdlExpr 5) (.hdlExpr 6)) := ⟨_, _, .hdlExpr rfl, .hdlExpr rfl, rfl⟩
  obtain ⟨res, s₁, result, values, -⟩ := constructors_share run reads
  exact ⟨_, run, res, s₁, result, values⟩

end Ghdl.Psl.Cse
