import Ghdl.Psl.HashConsing

/-!
# Calls of the constructors

A call finds its node on a chain or makes it. Both keep the state consistent and what the nodes denote, and the
result denotes what the constructor on expressions makes of the operands.
-/

namespace Ghdl.Psl.Cse

open Linked Function

variable {s s' s'' : State} {n m : Nat} {t u : BoolNode} {call other : Call}

/-- An operand of a compound node. -/
inductive Operand (s : State) (n : Nat) : Nat → Prop
  | boolean (kind : s.getKind n = .notBool) : Operand s n (s.getBoolean n)
  | left (kind : s.getKind n = .andBool ∨ s.getKind n = .orBool ∨ s.getKind n = .impBool) : Operand s n (s.getLeft n)
  | right (kind : s.getKind n = .andBool ∨ s.getKind n = .orBool ∨ s.getKind n = .impBool) :
      Operand s n (s.getRight n)

/-- The record of a node is left alone, but for the expression and the index of a leaf. -/
def Unchanged (before after : NodeRecord) : Prop :=
  after.kind = before.kind ∧ after.field5 = before.field5 ∧ after.field6 = before.field6 ∧
    (before.kind ≠ .hdlExpr → before.kind ≠ .eos → after = before)

theorem Unchanged.of_eq {before after : NodeRecord} (same : after = before) : Unchanged before after := by
  subst same
  exact ⟨rfl, rfl, rfl, fun _ _ => rfl⟩

theorem Unchanged.compound {before after : NodeRecord} (unchanged : Unchanged before after) {kind : Nkind}
    (same : before.kind = kind) (compound : kind ≠ .hdlExpr ∧ kind ≠ .eos) : after = before :=
  unchanged.2.2.2 (same ▸ compound.1) (same ▸ compound.2)

theorem Denotes.transfer {K : Nat → Prop} (denotes : Denotes s n t) (inside : K n)
    (same : ∀ n, K n → Unchanged (s.nodes n) (s'.nodes n) ∧ (Chained s' n ↔ Chained s n))
    (closed : ∀ n m, K n → Operand s n m → K m) : Denotes s' n t := by
  have kinds {n : Nat} {kind : Nkind} (inside : K n) (before : s.getKind n = kind) : s'.getKind n = kind :=
    (same n inside).1.1.trans before
  have origins {n : Nat} {origin : Option Nat} (inside : K n) (before : HasOrigin s n origin) :
      HasOrigin s' n origin := by
    unfold HasOrigin
    rw [(same n inside).2]
    exact before
  induction denotes with
  | hdlExpr kind => exact .hdlExpr (kinds inside kind)
  | eos kind => exact .eos (kinds inside kind)
  | trueNode kind => exact .trueNode (kinds inside kind)
  | falseNode kind => exact .falseNode (kinds inside kind)
  | @notBool n origin a kind root boolean ih =>
    have record := (same n inside).1.compound kind (by decide)
    have link : s'.getBoolean n = s.getBoolean n := congrArg NodeRecord.field3 record
    apply Denotes.notBool (kinds inside kind) (origins inside root)
    rw [link]
    exact ih (closed n _ inside (.boolean kind))
  | @andBool n origin a b kind root left right ihl ihr | @orBool n origin a b kind root left right ihl ihr
  | @impBool n origin a b kind root left right ihl ihr =>
    have record := (same n inside).1.compound kind (by decide)
    have linkL : s'.getLeft n = s.getLeft n := congrArg NodeRecord.field1 record
    have linkR : s'.getRight n = s.getRight n := congrArg NodeRecord.field2 record
    constructor
    · exact kinds inside kind
    · exact origins inside root
    · rw [linkL]
      exact ihl (closed n _ inside (.left (by simp [kind])))
    · rw [linkR]
      exact ihr (closed n _ inside (.right (by simp [kind])))

theorem Denotes.operand (denotes : Denotes s n t) (operand : Operand s n m) : ∃ u, Denotes s m u := by
  cases operand with
  | boolean kind =>
    cases denotes with
    | notBool _ _ boolean => exact ⟨_, boolean⟩
    | _ => simp_all
  | left kind =>
    cases denotes with
    | andBool _ _ left _ | orBool _ _ left _ | impBool _ _ left _ => exact ⟨_, left⟩
    | _ => simp_all
  | right kind =>
    cases denotes with
    | andBool _ _ _ right | orBool _ _ _ right | impBool _ _ _ right => exact ⟨_, right⟩
    | _ => simp_all

variable {same : NodeRecord → Bool} {l : List Nat}

theorem findNode_spec {turns h : Nat} (visits : Visits s.getHashLink nullNode h l) (enough : l.length < turns) :
    findNode s same turns h = some ((l.find? fun n => same (s.nodes n)).getD nullNode) := by
  induction l generalizing turns h with
  | nil =>
    obtain ⟨turns, rfl⟩ : ∃ k, turns = k + 1 := ⟨turns - 1, by simp at enough; omega⟩
    unfold findNode
    rw [if_pos (show h = nullNode from visits)]
    rfl
  | cons a l ih =>
    obtain ⟨rfl, notNull, rest⟩ := visits
    obtain ⟨turns, rfl⟩ : ∃ k, turns = k + 1 := ⟨turns - 1, by simp at enough; omega⟩
    unfold findNode
    rw [if_neg notNull, List.find?_cons]
    by_cases here : same (s.nodes h) = true
    · rw [if_pos here, here]
      rfl
    · rw [if_neg here, Bool.not_eq_true _ |>.mp here]
      exact ih rest (by simpa using enough)

namespace Consistent

theorem chain_length (consistent : Consistent s) {i : Fin 129}
    (visits : Visits s.getHashLink nullNode (s.hashTable i) l) : l.length < s.last + 1 := by
  obtain ⟨free, list⟩ := consistent.free
  have small : l ⊆ List.range' 1 s.last := by
    intro n inside
    obtain ⟨call, t, -, -, denotes⟩ := consistent.made n ⟨i, l, visits, inside⟩
    have notNull : n ≠ 0 := visits.ne_null inside
    have bound : ¬ s.last < n := fun behind => denotes.kind_ne_error (list.behind n behind)
    rw [List.mem_range'_1]
    omega
  have count := visits.nodup.length_le_of_subset small
  rw [List.length_range'] at count
  omega

end Consistent

theorem hashNode_found (consistent : Consistent s) {fill : NodeRecord → NodeRecord}
    (compares : ∀ record : NodeRecord, (record.kind = call.kind ∧ same record = true) ↔ record.call = some call)
    (chained : Chained s n) (made : (s.nodes n).call = some call) :
    hashNode s call.kind (call.hash s) same fill = some (n, s) := by
  obtain ⟨i, l, visits, inside⟩ := chained
  have hash : s.getHash n = call.hash s := by
    obtain ⟨call', t, made', hash', -⟩ := consistent.made n ⟨i, l, visits, inside⟩
    rw [Option.some.inj (made.symm.trans made')]
    exact hash'
  have place : bucket (call.hash s) = i := hash ▸ consistent.placed i l n visits inside
  let wanted := fun record : NodeRecord => record.field5 = call.hash s && record.kind = call.kind && same record
  have isWanted : ∀ record, wanted record = true ↔ record.field5 = call.hash s ∧ record.call = some call := by
    intro record
    rw [← compares]
    simp only [wanted, Bool.and_eq_true, decide_eq_true_eq, and_assoc]
  have found : (l.find? fun n => wanted (s.nodes n)) = some n := by
    obtain ⟨m, result⟩ : ∃ m, (l.find? fun n => wanted (s.nodes n)) = some m := by
      rw [← Option.isSome_iff_exists, List.find?_isSome]
      exact ⟨n, inside, (isWanted _).mpr ⟨hash, made⟩⟩
    have member : m ∈ l := List.mem_of_find?_eq_some result
    have fits : wanted (s.nodes m) = true := List.find?_some (p := fun n => wanted (s.nodes n)) result
    rw [result, consistent.shared m n call ⟨i, l, visits, member⟩ ⟨i, l, visits, inside⟩ ((isWanted _).mp fits).2 made]
  have loop : findNode s wanted (s.last + 1) (s.hashTable i) = some n := by
    rw [findNode_spec visits (consistent.chain_length visits), found]
    rfl
  unfold hashNode
  rw [place]
  dsimp only
  erw [loop]
  exact if_pos (visits.ne_null inside)

theorem createNode_spec {free : List Nat} (list : FreeList s free) (kind : Nkind) : ∃ res last' freeNodes' free',
      s.createNode kind = (res, { s with last := last', freeNodes := freeNodes' }.write res { initNode with kind }) ∧
      res ≠ nullNode ∧ s.getKind res = .error ∧
      ∀ record, FreeList ({ s with last := last', freeNodes := freeNodes' }.write res record) free' := by
  unfold State.createNode
  by_cases some : s.freeNodes ≠ nullNode
  · cases free with
    | nil => exact absurd list.visits some
    | cons a free =>
      have first : s.freeNodes = a := list.visits.1
      have distinct := List.nodup_cons.mp list.visits.nodup
      have rest : Visits s.getLeft nullNode (s.getLeft a) free := list.visits.2.2
      have other {n : Nat} (record : NodeRecord) (different : n ≠ a) :
          update s.nodes a record n = s.nodes n := update_of_ne different _ _
      have apart {n : Nat} (inside : n ∈ free) : n ≠ a := fun same => distinct.1 (same ▸ inside)
      refine ⟨a, s.last, s.getLeft a, free, ?_, first ▸ some, list.error a List.mem_cons_self, fun record => ?_⟩
      · rw [if_pos some, first]
      constructor
      · refine (Visits.congr fun n inside => ?_).mpr rest
        exact congrArg NodeRecord.field1 (other record (apart inside))
      · intro n inside
        have before := list.error n (List.mem_cons_of_mem a inside)
        exact (congrArg NodeRecord.kind (other record (apart inside))).trans before
      · intro n inside
        exact list.allocated n (List.mem_cons_of_mem a inside)
      · intro n behind
        have different : n ≠ a := by
          have bound := list.allocated a List.mem_cons_self
          have past : s.last < n := behind
          omega
        exact (congrArg NodeRecord.kind (other record different)).trans (list.behind n behind)
  · have none : s.freeNodes = nullNode := not_not.mp some
    have empty : free = [] := by
      cases free with
      | nil => rfl
      | cons a free => exact absurd (list.visits.1.symm.trans none) list.visits.2.1
    subst empty
    refine ⟨s.last + 1, s.last + 1, s.freeNodes, [], if_neg some, Nat.succ_ne_zero _,
      list.behind _ (Nat.lt_succ_self _), fun record => ?_⟩
    constructor
    · exact none
    · intro n inside
      cases inside
    · intro n inside
      cases inside
    · intro n behind
      have past : s.last + 1 < n := behind
      have different : n ≠ s.last + 1 := by omega
      have same : update s.nodes (s.last + 1) record n = s.nodes n := update_of_ne different _ _
      exact (congrArg NodeRecord.kind same).trans (list.behind n (by omega))

/-- The record of the node of a call. -/
def Call.record (s : State) (call : Call) : NodeRecord :=
  { call.fill { initNode with kind := call.kind } with
    field5 := call.hash s
    field6 := s.hashTable (bucket (call.hash s)) }

/-- The state after the node of a call was made. -/
structure Makes (s s' : State) (call : Call) (res : Nat) : Prop where
  nodes : s'.nodes = update s.nodes res (call.record s)
  hashTable : s'.hashTable = update s.hashTable (bucket (call.hash s)) res
  notNull : res ≠ nullNode
  fresh : s.getKind res = .error
  absent : ∀ n, Chained s n → (s.nodes n).call ≠ some call
  free : ∃ free, FreeList s' free

theorem hashNode_made (consistent : Consistent s) {fill : NodeRecord → NodeRecord}
    (compares : ∀ record : NodeRecord, (record.kind = call.kind ∧ same record = true) ↔ record.call = some call)
    (fills : fill = fun record => call.fill record) (absent : ∀ n, Chained s n → (s.nodes n).call ≠ some call) :
    ∃ res s', hashNode s call.kind (call.hash s) same fill = some (res, s') ∧ Makes s s' call res := by
  obtain ⟨l, visits⟩ := consistent.chain (bucket (call.hash s))
  obtain ⟨free, list⟩ := consistent.free
  obtain ⟨res, last', freeNodes', free', creates, notNull, fresh, list'⟩ := createNode_spec list call.kind
  let wanted := fun record : NodeRecord => record.field5 = call.hash s && record.kind = call.kind && same record
  have missing : (l.find? fun n => wanted (s.nodes n)) = none := by
    rw [List.find?_eq_none]
    intro n inside isWanted
    apply absent n ⟨_, l, visits, inside⟩
    rw [← compares]
    simp only [wanted, Bool.and_eq_true, decide_eq_true_eq] at isWanted
    exact ⟨isWanted.1.2, isWanted.2⟩
  have loop : findNode s wanted (s.last + 1) (s.hashTable (bucket (call.hash s))) = some nullNode := by
    rw [findNode_spec visits (consistent.chain_length visits), missing]
    rfl
  have result : hashNode s call.kind (call.hash s) same fill = some (res,
      { { s with last := last', freeNodes := freeNodes' }.write res (call.record s) with
        hashTable := update s.hashTable (bucket (call.hash s)) res }) := by
    unfold hashNode
    dsimp only
    erw [loop]
    show (if nullNode ≠ nullNode then _ else _) = _
    rw [if_neg (not_not.mpr rfl), creates, fills]
    unfold State.write
    simp only [update_self, Function.update_idem]
    rfl
  have written := list' (call.record s)
  exact ⟨res, _, result, rfl, rfl, notNull, fresh, absent, free', written.visits, written.error, written.allocated,
    written.behind⟩

namespace Call

/-- The operands of the call. -/
def operands : Call → List Nat
  | buildAnd l r => [l, r]
  | buildOr l r => [l, r]
  | buildNot n => [n]

/-- The expression of the node that is made for the call. -/
def Plain (s : State) : Call → BoolNode → Prop
  | buildAnd l r, t => ∃ a b, Denotes s l a ∧ Denotes s r b ∧ t = .andBool none a b
  | buildOr l r, t => ∃ a b, Denotes s l a ∧ Denotes s r b ∧ t = .orBool none a b
  | buildNot n, t => ∃ a, Denotes s n a ∧ t = .notBool none a

theorem Reads.operands (reads : call.Reads s t) : ∀ m ∈ call.operands, ∃ u, Denotes s m u := by
  cases call with
  | buildAnd l r | buildOr l r =>
    obtain ⟨a, b, left, right, -⟩ := reads
    simpa [Call.operands] using ⟨⟨a, left⟩, ⟨b, right⟩⟩
  | buildNot n =>
    obtain ⟨a, operand, -⟩ := reads
    simpa [Call.operands] using ⟨a, operand⟩

theorem hash_congr (same : ∀ m ∈ call.operands, s'.getHash m = s.getHash m) : call.hash s' = call.hash s := by
  cases call with
  | buildAnd l r | buildOr l r =>
    have left : s'.getHash l = s.getHash l := same l (by simp [operands])
    have right : s'.getHash r = s.getHash r := same r (by simp [operands])
    simp only [hash, State.computeHash, left, right]
  | buildNot n =>
    have operand : s'.getHash n = s.getHash n := same n (by simp [operands])
    exact congrArg (fun a : BitVec 32 => a <<< 2 ^^^ 1) operand

theorem operand_of_made (made : (s.nodes n).call = some call) : ∀ m ∈ call.operands, Operand s n m := by
  unfold NodeRecord.call at made
  split at made
  · next kind =>
    cases made
    rintro m (_ | ⟨_, _ | ⟨_, none⟩⟩)
    · exact .left (.inl kind)
    · exact .right (.inl kind)
    · cases none
  · next kind =>
    cases made
    rintro m (_ | ⟨_, _ | ⟨_, none⟩⟩)
    · exact .left (.inr (.inl kind))
    · exact .right (.inr (.inl kind))
    · cases none
  · next kind =>
    cases made
    rintro m (_ | ⟨_, none⟩)
    · exact .boolean kind
    · cases none
  · exact nomatch made

@[simp] theorem record_call : (call.record s).call = some call := by
  cases call <;> rfl

theorem Plain.denotes (plain : call.Plain s t) (chained : Chained s n) (made : (s.nodes n).call = some call) :
    Denotes s n t := by
  have root : HasOrigin s n none := .inl ⟨chained, rfl⟩
  unfold NodeRecord.call at made
  split at made
  · next kind =>
    cases made
    obtain ⟨a, b, left, right, rfl⟩ := plain
    exact .andBool kind root left right
  · next kind =>
    cases made
    obtain ⟨a, b, left, right, rfl⟩ := plain
    exact .orBool kind root left right
  · next kind =>
    cases made
    obtain ⟨a, operand, rfl⟩ := plain
    exact .notBool kind root operand
  · exact nomatch made

theorem simplify_spec (consistent : Consistent s) (reads : call.Reads s t) :
    (∀ n, call.simplify s = some n → Denotes s n t) ∧ (call.simplify s = none → call.Plain s t) := by
  cases call with
  | buildAnd l r =>
    obtain ⟨a, b, left, right, rfl⟩ := reads
    have simple := consistent.simplifyAnd left right
    exact ⟨simple.1, fun plain => ⟨a, b, left, right, simple.2 plain⟩⟩
  | buildOr l r =>
    obtain ⟨a, b, left, right, rfl⟩ := reads
    have simple := consistent.simplifyOr left right
    exact ⟨simple.1, fun plain => ⟨a, b, left, right, simple.2 plain⟩⟩
  | buildNot n =>
    obtain ⟨a, operand, rfl⟩ := reads
    have simple := consistent.simplifyNot operand
    exact ⟨simple.1, fun plain => ⟨a, operand, simple.2 plain⟩⟩

end Call

namespace Makes

variable {res : Nat}

section

variable (makes : Makes s s' call res)
include makes

theorem nodes_of_ne (different : n ≠ res) : s'.nodes n = s.nodes n := by
  rw [makes.nodes, update_of_ne different]

theorem nodes_res : s'.nodes res = call.record s := by
  rw [makes.nodes, update_self]

theorem ne_res (denotes : Denotes s n t) : n ≠ res := by
  intro same
  exact denotes.kind_ne_error (same ▸ makes.fresh)

section

variable (consistent : Consistent s)
include consistent

theorem chained_ne (chained : Chained s n) : n ≠ res := by
  obtain ⟨-, t, -, -, denotes⟩ := consistent.made n chained
  exact makes.ne_res denotes

/-- The new node is at the head of the chain of its hash value. -/
theorem visits {i : Fin 129}
    (visits : Visits s.getHashLink nullNode (s.hashTable i) l) :
    Visits s'.getHashLink nullNode (s'.hashTable i) (if i = bucket (call.hash s) then res :: l else l) := by
  have old : Visits s'.getHashLink nullNode (s.hashTable i) l := by
    refine (Visits.congr fun n inside => ?_).mpr visits
    have different := makes.chained_ne consistent ⟨i, l, visits, inside⟩
    exact congrArg NodeRecord.field6 (makes.nodes_of_ne different)
  rw [makes.hashTable]
  by_cases here : i = bucket (call.hash s)
  · subst here
    have link : s'.getHashLink res = s.hashTable (bucket (call.hash s)) := congrArg NodeRecord.field6 makes.nodes_res
    rw [if_pos rfl, update_self]
    exact ⟨rfl, makes.notNull, link ▸ old⟩
  · rw [if_neg here, update_of_ne here]
    exact old

theorem chained_iff :
    Chained s' n ↔ Chained s n ∨ n = res := by
  constructor
  · rintro ⟨i, l', visits', inside⟩
    obtain ⟨l, before⟩ := consistent.chain i
    rw [visits'.unique (makes.visits consistent before)] at inside
    split at inside
    · rcases List.mem_cons.mp inside with new | old
      · exact .inr new
      · exact .inl ⟨i, l, before, old⟩
    · exact .inl ⟨i, l, before, inside⟩
  · rintro (⟨i, l, before, inside⟩ | rfl)
    · refine ⟨i, _, makes.visits consistent before, ?_⟩
      split
      · exact List.mem_cons_of_mem _ inside
      · exact inside
    · obtain ⟨l, before⟩ := consistent.chain (bucket (call.hash s))
      refine ⟨_, _, makes.visits consistent before, ?_⟩
      rw [if_pos rfl]
      exact List.mem_cons_self

/-- What the other nodes denote is kept. -/
theorem denotes (denotes : Denotes s n t) :
    Denotes s' n t := by
  apply Denotes.transfer (K := fun n => ∃ t, Denotes s n t) denotes ⟨t, denotes⟩
  · rintro n ⟨t, inside⟩
    have different := makes.ne_res inside
    refine ⟨.of_eq (makes.nodes_of_ne different), ?_⟩
    rw [makes.chained_iff consistent]
    exact or_iff_left different
  · rintro n m ⟨t, inside⟩ operand
    exact inside.operand operand

end

theorem hash_eq {other : Call} (operands : ∀ m ∈ other.operands, ∃ u, Denotes s m u) :
    other.hash s' = other.hash s := by
  apply Call.hash_congr
  intro m inside
  obtain ⟨u, denotes⟩ := operands m inside
  exact congrArg NodeRecord.field5 (makes.nodes_of_ne (makes.ne_res denotes))

theorem denotes_res (consistent : Consistent s) (plain : call.Plain s t) :
    Denotes s' res t := by
  have kept : call.Plain s' t := by
    cases call with
    | buildAnd l r | buildOr l r =>
      obtain ⟨a, b, left, right, rfl⟩ := plain
      exact ⟨a, b, makes.denotes consistent left, makes.denotes consistent right, rfl⟩
    | buildNot n =>
      obtain ⟨a, operand, rfl⟩ := plain
      exact ⟨a, makes.denotes consistent operand, rfl⟩
  apply kept.denotes ((makes.chained_iff consistent).mpr (.inr rfl))
  rw [makes.nodes_res, Call.record_call]

theorem consistent (before : Consistent s) (plain : call.Plain s t)
    (operands : ∀ m ∈ call.operands, ∃ u, Denotes s m u) : Consistent s' where
  falseNode := by
    cases makes.denotes before before.denotes_false with
    | falseNode kind => exact kind
  trueNode := by
    cases makes.denotes before before.denotes_true with
    | trueNode kind => exact kind
  eosNode := by
    cases makes.denotes before (.eos before.eosNode) with
    | eos kind => exact kind
  chain := by
    intro i
    obtain ⟨l, visits⟩ := before.chain i
    exact ⟨_, makes.visits before visits⟩
  made := by
    intro n chained
    rcases (makes.chained_iff before).mp chained with old | rfl
    · obtain ⟨other, u, made, hash, denotes⟩ := before.made n old
      have same := makes.nodes_of_ne (makes.ne_res denotes)
      refine ⟨other, u, by rw [same, made], ?_, makes.denotes before denotes⟩
      have hashes : other.hash s' = other.hash s := by
        apply makes.hash_eq
        intro m inside
        exact denotes.operand (Call.operand_of_made made m inside)
      rw [hashes, ← hash]
      exact congrArg NodeRecord.field5 same
    · refine ⟨call, t, by rw [makes.nodes_res, Call.record_call], ?_, makes.denotes_res before plain⟩
      rw [makes.hash_eq operands]
      exact congrArg NodeRecord.field5 makes.nodes_res
  placed := by
    intro i l' n visits' inside
    obtain ⟨l, visits⟩ := before.chain i
    rw [visits'.unique (makes.visits before visits)] at inside
    have old (inside : n ∈ l) : bucket (s'.getHash n) = i := by
      have same := makes.nodes_of_ne (makes.chained_ne before ⟨i, l, visits, inside⟩)
      rw [show s'.getHash n = s.getHash n from congrArg NodeRecord.field5 same]
      exact before.placed i l n visits inside
    split at inside
    · next here =>
      rcases List.mem_cons.mp inside with rfl | inside
      · rw [show s'.getHash n = call.hash s from congrArg NodeRecord.field5 makes.nodes_res, here]
      · exact old inside
    · exact old inside
  shared := by
    have old {n : Nat} {other : Call} (chained : Chained s n) (made : (s'.nodes n).call = some other) :
        (s.nodes n).call = some other := by
      rw [← makes.nodes_of_ne (makes.chained_ne before chained)]
      exact made
    have new {other : Call} (made : (s'.nodes res).call = some other) : call = other := by
      rw [makes.nodes_res, Call.record_call] at made
      exact Option.some.inj made
    intro n m other chainedN chainedM madeN madeM
    rcases (makes.chained_iff before).mp chainedN with chainedN | rfl
    · rcases (makes.chained_iff before).mp chainedM with chainedM | rfl
      · exact before.shared n m other chainedN chainedM (old chainedN madeN) (old chainedM madeM)
      · exact absurd (old chainedN madeN) (new madeM ▸ makes.absent n chainedN)
    · rcases (makes.chained_iff before).mp chainedM with chainedM | rfl
      · exact absurd (old chainedM madeM) (new madeN ▸ makes.absent m chainedM)
      · rfl
  free := makes.free

end

end Makes

/-- A call whose operands denote expressions returns: it leaves the state as it is or makes one node, and its result
denotes what the constructor on expressions makes of them. A call that is not simplified returns a node of its own. -/
theorem perform_spec (consistent : Consistent s) (reads : call.Reads s t) :
    ∃ res s', call.perform s = some (res, s') ∧ Consistent s' ∧ Denotes s' res t ∧
      (∀ n u, Denotes s n u → Denotes s' n u) ∧ (s' = s ∨ Makes s s' call res) ∧
      (call.simplify s = none → Chained s' res ∧ (s'.nodes res).call = some call) := by
  have simple := Call.simplify_spec consistent reads
  cases simplified : call.simplify s with
  | some n =>
    exact ⟨n, s, Call.perform_simplified simplified, consistent, simple.1 n simplified, fun _ _ => id, .inl rfl,
      fun none => nomatch none⟩
  | none =>
    have plain := simple.2 simplified
    obtain ⟨same, performs, compares⟩ := Call.perform_eq s call simplified
    by_cases present : ∃ n, Chained s n ∧ (s.nodes n).call = some call
    · obtain ⟨n, chained, made⟩ := present
      exact ⟨n, s, performs.trans (hashNode_found consistent compares chained made), consistent,
        plain.denotes chained made, fun _ _ => id, .inl rfl, fun _ => ⟨chained, made⟩⟩
    have absent : ∀ n, Chained s n → (s.nodes n).call ≠ some call := fun n chained made => present ⟨n, chained, made⟩
    obtain ⟨res, s', result, makes⟩ := hashNode_made consistent compares rfl absent
    refine ⟨res, s', performs.trans result, makes.consistent consistent plain reads.operands,
      makes.denotes_res consistent plain, fun _ _ => makes.denotes consistent, .inr makes, fun _ => ?_⟩
    refine ⟨(makes.chained_iff consistent).mpr (.inr rfl), ?_⟩
    rw [makes.nodes_res, Call.record_call]

end Ghdl.Psl.Cse
