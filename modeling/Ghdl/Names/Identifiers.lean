import Mathlib.Data.Nat.Bitwise
import Ghdl.Linked.Family
import Ghdl.Names.NameTable

/-!
# Identifiers and strings

The table holds a list of distinct strings, in the order of their identifiers. The hash chains are lists that
share the field `Next`, one for each entry of the hash table, and together hold every identifier that has a
string. An expansion moves the identifiers one by one from the old chains to the new ones.
-/

namespace Ghdl.Names

open Linked Function

namespace NameTable

/-- The strings of the table, each with its terminator. -/
def stored (words : List (List Character)) : List Character :=
  characterStrings ++ words.flatMap (· ++ [nul])

/-- The link of an identifier that has a string. -/
def links (t : NameTable) (id : NameId) : Option (Option NameId) :=
  if firstNameId ≤ id ∧ id < t.lastName then some (t.names id).next else none

/-- The strings of the identifiers are WORDS, and their hash values are known. -/
structure Stores (t : NameTable) (words : List (List Character)) : Prop where
  last : t.lastName = firstNameId + words.length
  strings : t.strings = stored words
  name : ∀ k ≤ words.length, (t.names (firstNameId + k)).name = (stored (words.take k)).length
  hash : ∀ (k : Nat) (small : k < words.length),
    (t.names (firstNameId + k)).hash = computeHash words[k]
  nodup : words.Nodup

/-- The identifiers of each chain have the hash values of its entry. -/
structure Chained (t : NameTable) (cells : Nat → List NameId) : Prop where
  family : Family t.links t.hashTable cells
  index : ∀ i, ∀ id ∈ cells i, hashIndex t.hashTableSize (t.names id).hash = i

/-- The size of the hash table is a power of two. -/
def SizeOk (t : NameTable) : Prop := ∃ k, t.hashTableSize = 2 ^ k

/-- A table whose identifiers have the strings WORDS, all of them in the hash chains. -/
structure Holds (t : NameTable) (words : List (List Character)) : Prop where
  stores : t.Stores words
  size : t.SizeOk
  chained : ∃ cells, t.Chained cells

variable {t t' : NameTable} {words : List (List Character)} {str : List Character} {id : NameId}
  {cells : Nat → List NameId} {hash : BitVec 32} {k size : Nat}

theorem hashIndex_lt (k : Nat) (hash : BitVec 32) : hashIndex (2 ^ k) hash < 2 ^ k := by
  unfold hashIndex
  rw [Nat.and_two_pow_sub_one_eq_mod]
  exact Nat.mod_lt _ (Nat.two_pow_pos k)

theorem stored_length_take_succ (small : k < words.length) :
    (stored (words.take (k + 1))).length = (stored (words.take k)).length + words[k].length + 1 := by
  unfold stored
  rw [List.take_succ_eq_append_getElem small, List.flatMap_append]
  simp only [List.length_append, List.flatMap_cons, List.flatMap_nil, List.append_nil, List.length_cons,
    List.length_nil]
  omega

theorem stored_split (small : k < words.length) :
    stored words = stored (words.take k) ++ (words[k] ++ ([nul] ++ (words.drop (k + 1)).flatMap (· ++ [nul]))) := by
  have split : words = words.take k ++ words[k] :: words.drop (k + 1) := by
    rw [List.getElem_cons_drop, List.take_append_drop]
  have texts := congrArg (List.flatMap (· ++ [nul])) split
  rw [List.flatMap_append, List.flatMap_cons] at texts
  unfold stored
  rw [texts]
  simp only [List.append_assoc]

section

variable (stores : t.Stores words)
include stores

section

variable (small : k < words.length)
include small

theorem Stores.getNameLength :
    t.getNameLength (firstNameId + k) = .ok words[k].length := by
  have inside : firstNameId + k < t.lastName := by
    rw [stores.last]
    exact Nat.add_lt_add_left small _
  have here := stores.name k (Nat.le_of_lt small)
  have next : (t.names (firstNameId + k + 1)).name = (stored (words.take (k + 1))).length := stores.name (k + 1) small
  unfold NameTable.getNameLength
  have length : (stored (words.take (k + 1))).length - (stored (words.take k)).length - 1 =
      words[k].length := by
    rw [stored_length_take_succ small]
    omega
  rw [if_pos inside, here, next]
  exact congrArg Except.ok length

theorem Stores.slice :
    t.slice (t.names (firstNameId + k)).name words[k].length = words[k] := by
  unfold NameTable.slice
  rw [stores.name k (Nat.le_of_lt small), stores.strings, stored_split small, List.drop_left, List.take_left]

theorem Stores.image :
    t.image (firstNameId + k) = .ok words[k] := by
  have notCharacter : isCharacter (firstNameId + k) = false := by
    have above : ¬firstNameId + k ≤ firstCharacterNameId + 255 := by
      rw [Nat.not_le]
      exact Nat.lt_of_lt_of_le (Nat.lt_succ_self _) (Nat.le_add_right _ k)
    unfold isCharacter
    rw [decide_eq_false above, Bool.and_false]
  unfold NameTable.image
  rw [notCharacter, stores.getNameLength small]
  exact congrArg Except.ok (stores.slice small)

theorem Stores.isName (str : List Character) :
    t.isName (computeHash str) str (firstNameId + k) = .ok (decide (words[k] = str)) := by
  unfold NameTable.isName
  rw [stores.hash k small]
  by_cases same : words[k] = str
  · rw [if_pos (congrArg computeHash same), stores.getNameLength small]
    have whole := stores.slice small
    have equal : t.compareNameBufferWithName (firstNameId + k) str = true := by
      unfold compareNameBufferWithName
      rw [← same]
      exact decide_eq_true whole
    show Except.ok (decide (words[k].length = str.length) && _) = _
    rw [equal, same]
    simp
  by_cases hash : computeHash words[k] = computeHash str
  · rw [if_pos hash, stores.getNameLength small]
    show Except.ok (decide (words[k].length = str.length) && _) = _
    by_cases length : words[k].length = str.length
    · have whole := stores.slice small
      have different : t.compareNameBufferWithName (firstNameId + k) str = false := by
        unfold compareNameBufferWithName
        rw [← length, whole]
        exact decide_eq_false same
      rw [different]
      simp [same]
    · simp [length, same]
  · rw [if_neg hash]
    simp [same]

end

end

/-- The identifier of a string, when the table has it. -/
def identOf (words : List (List Character)) (str : List Character) : Option NameId :=
  (words.idxOf? str).map (firstNameId + ·)

theorem identOf_none : identOf words str = none ↔ str ∉ words := by
  unfold identOf
  rw [Option.map_eq_none_iff, List.idxOf?_eq_none_iff]

theorem identOf_some (nodup : words.Nodup) (small : k < words.length) :
    identOf words words[k] = some (firstNameId + k) := by
  have found : words.idxOf? words[k] = some k := by
    rw [List.idxOf?_eq_some_iff]
    refine ⟨small, rfl, fun j less => ?_⟩
    have different : j ≠ k := Nat.ne_of_lt less
    intro same
    have equal : words[j] = words[k] := by simpa using same
    exact different ((nodup.getElem_inj_iff).mp equal)
  unfold identOf
  rw [found]
  rfl

theorem Stores.index_of_link (stores : t.Stores words) (linked : t.links id ≠ none) :
    ∃ k, k < words.length ∧ id = firstNameId + k := by
  unfold links at linked
  by_cases inside : firstNameId ≤ id ∧ id < t.lastName
  · obtain ⟨k, same⟩ := Nat.exists_eq_add_of_le inside.1
    have bound := inside.2
    rw [stores.last, same] at bound
    exact ⟨k, Nat.lt_of_add_lt_add_left bound, same⟩
  · rw [if_neg inside] at linked
    exact absurd rfl linked

theorem Stores.findName (stores : t.Stores words) {p : Option NameId} {l : List NameId}
    (path : Segment t.links p l none) {fuel : Nat} (enough : l.length ≤ fuel) :
    ∃ res, t.findName (computeHash str) str fuel p = .ok res ∧
      ((∃ id ∈ l, identOf words str = some id) → res = identOf words str) ∧
        ((¬∃ id ∈ l, identOf words str = some id) → res = none) := by
  induction l generalizing p fuel with
  | nil =>
    obtain rfl : p = none := path
    refine ⟨none, by cases fuel <;> rfl, ?_, fun _ => rfl⟩
    rintro ⟨id, member, -⟩
    exact absurd member List.not_mem_nil
  | cons a l ih =>
    obtain ⟨rfl, r, link, rest⟩ := path
    obtain ⟨fuel, rfl⟩ := Nat.exists_eq_succ_of_ne_zero
      (Nat.ne_of_gt (Nat.lt_of_lt_of_le (Nat.succ_pos l.length) enough))
    have linked : t.links a ≠ none := by simp [link]
    obtain ⟨k, small, rfl⟩ := stores.index_of_link linked
    have next : (t.names (firstNameId + k)).next = r := by
      unfold links at link
      split at link
      · exact Option.some.inj link
      · cases link
    rw [NameTable.findName, stores.isName small]
    show ∃ res, (if decide (words[k] = str) = true then _ else _ : Outcome (Option NameId)) = .ok res ∧ _
    by_cases same : words[k] = str
    · have found : identOf words str = some (firstNameId + k) := same ▸ identOf_some stores.nodup small
      rw [if_pos (decide_eq_true same)]
      refine ⟨some (firstNameId + k), rfl, fun _ => found.symm, fun nowhere => ?_⟩
      exact absurd ⟨_, List.mem_cons_self, found⟩ nowhere
    have other : identOf words str ≠ some (firstNameId + k) := by
      intro found
      unfold identOf at found
      obtain ⟨j, index, equal⟩ := Option.map_eq_some_iff.mp found
      obtain rfl : j = k := Nat.add_left_cancel equal
      obtain ⟨_, isStr, -⟩ := List.idxOf?_eq_some_iff.mp index
      exact same (by simpa using isStr)
    rw [if_neg (by simpa using same), next]
    obtain ⟨res, run, yes, no⟩ := ih rest (Nat.le_of_succ_le_succ enough)
    refine ⟨res, run, ?_, ?_⟩
    · rintro ⟨id, member, found⟩
      rcases List.mem_cons.mp member with rfl | member
      · exact absurd found other
      · exact yes ⟨id, member, found⟩
    · intro nowhere
      exact no fun ⟨id, member, found⟩ => nowhere ⟨id, List.mem_cons_of_mem _ member, found⟩

@[simp] theorem push_hash (index : Nat) (id a : NameId) : ((t.push index id).names a).hash = (t.names a).hash := by
  by_cases here : a = id
  · subst here
    simp [push]
  · simp [push, here]

@[simp] theorem push_name (index : Nat) (id a : NameId) : ((t.push index id).names a).name = (t.names a).name := by
  by_cases here : a = id
  · subst here
    simp [push]
  · simp [push, here]

theorem links_push (linked : t.links id ≠ none) (index : Nat) :
    (t.push index id).links = update t.links id (some (t.hashTable index)) := by
  have bounds : firstNameId ≤ id ∧ id < t.lastName := by
    unfold links at linked
    by_contra outside
    exact linked (if_neg outside)
  funext a
  by_cases here : a = id
  · subst here
    rw [update_self]
    unfold links push
    simp [bounds]
  · rw [update_of_ne here]
    unfold links push
    simp [here]

/-- The tables differ in the chains only. -/
structure Relinked (t t' : NameTable) : Prop where
  hash : ∀ id, (t'.names id).hash = (t.names id).hash
  name : ∀ id, (t'.names id).name = (t.names id).name
  last : t'.lastName = t.lastName
  strings : t'.strings = t.strings
  size : t'.hashTableSize = t.hashTableSize

theorem Relinked.trans {t'' : NameTable} (first : Relinked t t') (second : Relinked t' t'') : Relinked t t'' where
  hash id := (second.hash id).trans (first.hash id)
  name id := (second.name id).trans (first.name id)
  last := second.last.trans first.last
  strings := second.strings.trans first.strings
  size := second.size.trans first.size

theorem relinked_push (index : Nat) (id : NameId) : Relinked t (t.push index id) :=
  ⟨push_hash index id, push_name index id, rfl, rfl, rfl⟩

theorem Stores.relinked (stores : t.Stores words) (same : Relinked t t') : t'.Stores words where
  last := same.last.trans stores.last
  strings := same.strings.trans stores.strings
  name k small := (same.name _).trans (stores.name k small)
  hash k small := (same.hash _).trans (stores.hash k small)
  nodup := stores.nodup

/-- The old chains and the new ones while the identifiers are moved: what is left of each old chain starts at
OLD. -/
structure Rehashing (t : NameTable) (old : Nat → Option NameId) (cells : Nat ⊕ Nat → List NameId) :
    Prop where
  family : Family t.links (Sum.elim old t.hashTable) cells
  index : ∀ i, ∀ id ∈ cells (.inr i), hashIndex t.hashTableSize (t.names id).hash = i

variable {old : Nat → Option NameId} {moving moving' : Nat ⊕ Nat → List NameId} {i : Nat} {l : List NameId}

theorem Rehashing.move (rehashing : t.Rehashing old moving) (front : moving (.inl i) = id :: l) :
    ∃ moving', (t.push (hashIndex t.hashTableSize (t.names id).hash) id).Rehashing
        (update old i (t.names id).next) moving' ∧
      moving' (.inl i) = l ∧ ∀ j, j ≠ i → moving' (.inl j) = moving (.inl j) := by
  obtain ⟨r, link, popped⟩ := rehashing.family.pop front
  have linked : t.links id ≠ none := by simp [link]
  have next : (t.names id).next = r := by
    unfold links at link
    split at link
    · exact Option.some.inj link
    · cases link
  -- The index of the new chain.
  generalize index : hashIndex t.hashTableSize (t.names id).hash = k
  have pushed := popped.push (update_self id none t.links) (.inr k)
  rw [Function.update_idem, Sum.update_elim_inl, Sum.update_elim_inr] at pushed
  refine ⟨update (update moving (.inl i) l) (.inr k)
      (id :: update moving (.inl i) l (.inr k)), ⟨?_, fun j a member => ?_⟩, ?_, fun j other => ?_⟩
  · rw [links_push linked, next]
    exact pushed
  · rw [push_hash]
    by_cases here : j = k
    · rw [here, update_self] at member
      rcases List.mem_cons.mp member with first | member
      · rw [first, here]
        exact index
      · rw [here]
        exact rehashing.index k a (by simpa using member)
    · exact rehashing.index j a (by simpa [here] using member)
  · simp
  · simp [other]

theorem Rehashing.chain (rehashing : t.Rehashing old moving) (list : moving (.inl i) = l) {fuel : Nat}
    (enough : l.length ≤ fuel) :
    ∃ t' old' moving', rehashFrom fuel (old i) t = .ok t' ∧ t'.Rehashing old' moving' ∧ Relinked t t' ∧
      moving' (.inl i) = [] ∧ ∀ j, j ≠ i → old' j = old j ∧ moving' (.inl j) = moving (.inl j) := by
  induction l generalizing t old moving fuel with
  | nil =>
    have start : old i = none := rehashing.family.head_none.mpr list
    rw [start]
    refine ⟨t, old, moving, by cases fuel <;> rfl, rehashing, ⟨fun _ => rfl, fun _ => rfl, rfl, rfl, rfl⟩, list,
      fun j _ => ⟨rfl, rfl⟩⟩
  | cons id l ih =>
    obtain ⟨fuel, rfl⟩ := Nat.exists_eq_succ_of_ne_zero
      (Nat.ne_of_gt (Nat.lt_of_lt_of_le (Nat.succ_pos l.length) enough))
    have start : old i = some id := rehashing.family.head_cons list
    obtain ⟨moving₁, rehashing₁, rest, others⟩ := rehashing.move list
    obtain ⟨t', old', moving', run, rehashing', same, empty, others'⟩ :=
      ih rehashing₁ rest (Nat.le_of_succ_le_succ enough)
    rw [update_self] at run
    refine ⟨t', old', moving', ?_, rehashing', (relinked_push _ id).trans same, empty, fun j other => ?_⟩
    · rw [start, rehashFrom]
      exact run
    · obtain ⟨head, cells'⟩ := others' j other
      exact ⟨head.trans (update_of_ne other _ _), cells'.trans (others j other)⟩

theorem Rehashing.table {starts : Nat → Option NameId} {entries : List Nat} (nodup : entries.Nodup)
    (rehashing : t.Rehashing old moving) (same : ∀ i ∈ entries, old i = starts i) {fuel : Nat}
    (enough : ∀ i ∈ entries, (moving (.inl i)).length ≤ fuel) :
    ∃ t' old' moving', entries.foldlM (fun u i => rehashFrom fuel (starts i) u) t = .ok t' ∧
      t'.Rehashing old' moving' ∧ Relinked t t' ∧ (∀ i ∈ entries, moving' (.inl i) = []) ∧
        ∀ j, j ∉ entries → moving' (.inl j) = moving (.inl j) := by
  induction entries generalizing t old moving with
  | nil =>
    exact ⟨t, old, moving, rfl, rehashing, ⟨fun _ => rfl, fun _ => rfl, rfl, rfl, rfl⟩,
      fun i member => absurd member List.not_mem_nil, fun j _ => rfl⟩
  | cons i entries ih =>
    obtain ⟨outside, nodup'⟩ := List.nodup_cons.mp nodup
    have here : old i = starts i := same i List.mem_cons_self
    obtain ⟨t₁, old₁, moving₁, run, rehashing₁, relinked₁, empty, others⟩ :=
      rehashing.chain (i := i) rfl (enough i List.mem_cons_self)
    have apart : ∀ {j}, j ∈ entries → j ≠ i := fun member => ne_of_mem_of_not_mem member outside
    obtain ⟨t', old', moving', run', rehashing', relinked', empty', others'⟩ :=
      ih nodup' rehashing₁
        (fun j member => (others j (apart member)).1.trans (same j (List.mem_cons_of_mem i member)))
        fun j member => by
          rw [(others j (apart member)).2]
          exact enough j (List.mem_cons_of_mem i member)
    refine ⟨t', old', moving', ?_, rehashing', relinked₁.trans relinked', ?_, fun j out => ?_⟩
    · rw [List.foldlM_cons, ← here, run]
      exact run'
    · intro j member
      by_cases first : j = i
      · rw [first, others' i outside, empty]
      · exact empty' j ((List.mem_cons.mp member).resolve_left first)
    · have different : j ≠ i := fun equal => out (equal ▸ List.mem_cons_self)
      have rest : j ∉ entries := fun member => out (List.mem_cons_of_mem i member)
      rw [others' j rest, (others j different).2]

theorem Chained.length_le (chained : t.Chained cells) (i : Nat) : (cells i).length ≤ t.lastName := by
  apply (chained.family.path i).length_le
  intro a member
  have linked := chained.family.linked_iff.mpr ⟨i, member⟩
  unfold links at linked
  by_contra outside
  exact linked (if_neg fun inside => outside inside.2)

section

variable (holds : t.Holds words)
include holds

theorem Holds.expand : ∃ t', t.expand = .ok t' ∧ t'.Holds words := by
  obtain ⟨stores, ⟨k, size⟩, cells, chained⟩ := holds
  have rehashing : Rehashing { t with hashTableSize := t.hashTableSize * 2, hashTable := fun _ => none }
      t.hashTable (Sum.elim cells fun _ => []) :=
    ⟨chained.family.widen, fun i id member => absurd member List.not_mem_nil⟩
  obtain ⟨t', old', moving', run, rehashing', relinked, empty, others⟩ :=
    rehashing.table List.nodup_range (fun _ _ => rfl) fun i _ => chained.length_le i
  have gone : ∀ i, moving' (.inl i) = [] := by
    intro i
    by_cases small : i ∈ List.range t.hashTableSize
    · exact empty i small
    rw [others i small]
    -- No identifier has an index past the end of the old table.
    apply List.eq_nil_iff_forall_not_mem.mpr
    intro id member
    have index := chained.index i id member
    rw [size] at index
    rw [List.mem_range, size] at small
    exact small (index ▸ hashIndex_lt k _)
  have kept : Stores { t with hashTableSize := t.hashTableSize * 2, hashTable := fun _ => none } words :=
    ⟨stores.last, stores.strings, stores.name, stores.hash, stores.nodup⟩
  refine ⟨t', run, kept.relinked relinked, ⟨k + 1, ?_⟩, _, rehashing'.family.narrow gone, rehashing'.index⟩
  rw [relinked.size, pow_succ, ← size]

theorem Holds.insertName (fresh : str ∉ words) :
    (t.insertName (computeHash str) str).1 = firstNameId + words.length ∧
      (t.insertName (computeHash str) str).2.Holds (words ++ [str]) := by
  obtain ⟨stores, size, cells, chained⟩ := holds
  have last := stores.last
  refine ⟨last, ⟨?_, size, ?_⟩⟩
  · have strings : t.strings ++ (str ++ [nul]) = stored (words ++ [str]) := by
      rw [stores.strings]
      unfold stored
      simp
    have names : ∀ k < words.length, (t.insertName (computeHash str) str).2.names (firstNameId + k) =
        t.names (firstNameId + k) := by
      intro k small
      have notNew : firstNameId + k ≠ t.lastName := by
        rw [last]
        exact Nat.ne_of_lt (Nat.add_lt_add_left small _)
      have notEnd : firstNameId + k ≠ t.lastName + 1 := by
        rw [last]
        exact Nat.ne_of_lt (Nat.lt_succ_of_lt (Nat.add_lt_add_left small _))
      unfold NameTable.insertName
      simp [notNew, notEnd]
    refine ⟨?_, strings, fun k bound => ?_, fun k bound => ?_, ?_⟩
    · show t.lastName + 1 = firstNameId + (words ++ [str]).length
      rw [last, List.length_append]
      rfl
    · rw [List.length_append, List.length_singleton] at bound
      rcases Nat.lt_or_ge k words.length with old | new
      · rw [names k old, stores.name k (Nat.le_of_lt old), List.take_append_of_le_length (Nat.le_of_lt old)]
      rcases Nat.eq_or_lt_of_le bound with atEnd | here
      · subst atEnd
        have whole : (words ++ [str]).take (words.length + 1) = words ++ [str] := by
          apply List.take_of_length_le
          simp
        rw [whole, ← strings]
        have equal : firstNameId + (words.length + 1) = t.lastName + 1 := by rw [last, Nat.add_assoc]
        rw [equal]
        unfold NameTable.insertName
        simp
      · have equal : k = words.length := Nat.le_antisymm (Nat.le_of_lt_succ here) new
        subst equal
        rw [List.take_left, ← stores.strings, ← last]
        unfold NameTable.insertName
        simp
    · rcases Nat.lt_or_ge k words.length with old | new
      · rw [names k old, List.getElem_append_left old]
        exact stores.hash k old
      have equal : k = words.length := by
        rw [List.length_append, List.length_singleton] at bound
        exact Nat.le_antisymm (Nat.le_of_lt_succ bound) new
      subst equal
      rw [← last, List.getElem_concat_length rfl]
      unfold NameTable.insertName
      simp
    · exact List.nodup_append.mpr ⟨stores.nodup, List.nodup_singleton _, fun a member b single => by
        rw [List.mem_singleton.mp single]
        exact ne_of_mem_of_not_mem member fresh⟩
  · -- The new identifier is put in front of a chain.
    have first : firstNameId ≤ t.lastName := by
      rw [last]
      exact Nat.le_add_right _ _
    have unlinked : t.links t.lastName = none := by
      unfold links
      exact if_neg fun inside => absurd inside.2 (Nat.lt_irrefl _)
    have pushed := chained.family.push unlinked (hashIndex t.hashTableSize (computeHash str))
    refine ⟨update cells (hashIndex t.hashTableSize (computeHash str))
        (t.lastName :: cells (hashIndex t.hashTableSize (computeHash str))), ?_, fun i a member => ?_⟩
    · convert pushed using 1
      · funext a
        by_cases here : a = t.lastName
        · rw [here, update_self]
          unfold links NameTable.insertName
          simp [first]
        rw [update_of_ne here]
        unfold links NameTable.insertName
        have bounds : a < t.lastName + 1 ↔ a < t.lastName := by
          rw [Nat.lt_succ_iff_lt_or_eq]
          exact or_iff_left here
        by_cases inside : a < t.lastName
        · have notEnd : a ≠ t.lastName + 1 := Nat.ne_of_lt (Nat.lt_succ_of_lt inside)
          simp [bounds, inside, here, notEnd]
        · simp [bounds, inside]
      · rfl
    · have hashes : ∀ a, a < t.lastName →
          (t.insertName (computeHash str) str).2.names a = t.names a := by
        intro a inside
        have notNew : a ≠ t.lastName := Nat.ne_of_lt inside
        have notEnd : a ≠ t.lastName + 1 := Nat.ne_of_lt (Nat.lt_succ_of_lt inside)
        unfold NameTable.insertName
        simp [notNew, notEnd]
      have old : ∀ j, a ∈ cells j → a < t.lastName := by
        intro j member
        have linked := chained.family.linked_iff.mpr ⟨j, member⟩
        unfold links at linked
        by_contra outside
        exact linked (if_neg fun inside => outside inside.2)
      show hashIndex t.hashTableSize _ = i
      by_cases here : i = hashIndex t.hashTableSize (computeHash str)
      · rw [here, update_self] at member
        rcases List.mem_cons.mp member with new | member
        · rw [new, here]
          unfold NameTable.insertName
          simp
        · rw [hashes a (old _ member), here]
          exact chained.index _ a member
      · rw [update_of_ne here] at member
        rw [hashes a (old _ member)]
        exact chained.index _ a member

theorem Holds.getIdentifierNoCreate (str : List Character) :
    t.getIdentifierNoCreate str = .ok (identOf words str) := by
  obtain ⟨stores, size, cells, chained⟩ := holds
  have short := chained.length_le (hashIndex t.hashTableSize (computeHash str))
  obtain ⟨res, run, yes, no⟩ : ∃ res, t.findName (computeHash str) str _ _ = .ok res ∧ _ ∧ _ := stores.findName
    (chained.family.path (hashIndex t.hashTableSize (computeHash str))) short
  unfold NameTable.getIdentifierNoCreate
  refine run.trans (congrArg Except.ok ?_)
  cases found : identOf words str with
  | none =>
    apply no
    rintro ⟨id, -, isId⟩
    rw [found] at isId
    cases isId
  | some id =>
    rw [← found]
    apply yes
    -- The identifier is on the chain of the hash value of its string.
    obtain ⟨k, index, same⟩ := Option.map_eq_some_iff.mp found
    obtain ⟨small, isStr, -⟩ := List.idxOf?_eq_some_iff.mp index
    have word : words[k] = str := by simpa using isStr
    have linked : t.links (firstNameId + k) ≠ none := by
      have bound : firstNameId + k < t.lastName := by
        rw [stores.last]
        exact Nat.add_lt_add_left small _
      unfold links
      rw [if_pos ⟨Nat.le_add_right _ _, bound⟩]
      simp
    obtain ⟨i, member⟩ := chained.family.complete _ linked
    have here := chained.index i _ member
    rw [stores.hash k small, word] at here
    rw [here]
    exact ⟨_, member, by rw [found, same]⟩

/-- What `Get_Identifier` returns. -/
theorem Holds.getIdentifier (str : List Character) :
    ∃ id t' more, t.getIdentifier str = .ok (id, t') ∧ t'.Holds (words ++ more) ∧
      identOf (words ++ more) str = some id ∧ (∀ s ∈ more, s = str) := by
  have lookup := holds.getIdentifierNoCreate str
  unfold NameTable.getIdentifierNoCreate at lookup
  dsimp only at lookup
  cases found : identOf words str with
  | some id =>
    refine ⟨id, t, [], ?_, ?_, ?_, fun s member => absurd member List.not_mem_nil⟩
    · unfold NameTable.getIdentifier
      dsimp only
      rw [lookup, found]
      rfl
    · rw [List.append_nil]
      exact holds
    · rw [List.append_nil]
      exact found
  | none =>
    have fresh := identOf_none.mp found
    obtain ⟨t₁, holds₁, run⟩ : ∃ t₁ : NameTable, t₁.Holds words ∧
        t.getIdentifier str = .ok (t₁.insertName (computeHash str) str) := by
      unfold NameTable.getIdentifier
      dsimp only
      rw [lookup, found]
      by_cases full : 2 * t.hashTableSize < t.lastName
      · obtain ⟨t₁, run, holds₁⟩ := holds.expand
        refine ⟨t₁, holds₁, ?_⟩
        show (if 2 * t.hashTableSize < t.lastName then _ else _ : Outcome (NameId × NameTable)) = _
        rw [if_pos full, run]
        rfl
      · refine ⟨t, holds, ?_⟩
        show (if 2 * t.hashTableSize < t.lastName then _ else _ : Outcome (NameId × NameTable)) = _
        rw [if_neg full]
        rfl
    obtain ⟨isNew, holds'⟩ := holds₁.insertName fresh
    refine ⟨_, _, [str], run, holds', ?_, fun s member => List.mem_singleton.mp member⟩
    have last : words.length < (words ++ [str]).length := by simp
    have isStr : (words ++ [str])[words.length] = str := List.getElem_concat_length rfl last
    have known := identOf_some holds'.stores.nodup last
    rw [isStr] at known
    exact known.trans (congrArg some isNew.symm)

end

theorem identOf_append (member : str ∈ words) (more : List (List Character)) :
    identOf (words ++ more) str = identOf words str := by
  cases found : words.idxOf? str with
  | none => exact absurd member (List.idxOf?_eq_none_iff.mp found)
  | some k =>
    have index : (words ++ more).idxOf? str = some k := by
      obtain ⟨small, isStr, before⟩ := List.idxOf?_eq_some_iff.mp found
      rw [List.idxOf?_eq_some_iff]
      refine ⟨Nat.lt_of_lt_of_le small (by simp), ?_, fun j less => ?_⟩
      · rwa [List.getElem_append_left small]
      · rw [List.getElem_append_left (Nat.lt_trans less small)]
        exact before j less
    unfold identOf
    rw [found, index]

theorem identOf_inj {str' : List Character} (found : identOf words str = some id)
    (found' : identOf words str' = some id) : str = str' := by
  obtain ⟨k, index, same⟩ := Option.map_eq_some_iff.mp found
  obtain ⟨k', index', same'⟩ := Option.map_eq_some_iff.mp found'
  have equal : k = k' := Nat.add_left_cancel (same.trans same'.symm)
  subst equal
  obtain ⟨small, isStr, -⟩ := List.idxOf?_eq_some_iff.mp index
  obtain ⟨_, isStr', -⟩ := List.idxOf?_eq_some_iff.mp index'
  have word : words[k] = str := by simpa using isStr
  have word' : words[k] = str' := by simpa using isStr'
  exact word.symm.trans word'

/-- The strings for which entries are created. -/
def created (calls : List Call) : List (List Character) :=
  (calls.filter Call.create).map Call.str

@[simp] theorem mem_created {calls : List Call} : str ∈ created calls ↔ ∃ c ∈ calls, c.create = true ∧ c.str = str := by
  unfold created
  simp [and_assoc]

theorem Holds.call (holds : t.Holds words) (c : Call) :
    ∃ t' more, t.call c = .ok (if c.create ∨ c.str ∈ words then identOf (words ++ more) c.str else none, t') ∧
      t'.Holds (words ++ more) ∧ ∀ s, s ∈ words ++ more ↔ s ∈ words ∨ c.create = true ∧ s = c.str := by
  unfold NameTable.call
  cases create : c.create with
  | true =>
    obtain ⟨id, t', more, run, holds', found, only⟩ := holds.getIdentifier c.str
    have inside : c.str ∈ words ++ more := by
      by_contra outside
      rw [identOf_none.mpr outside] at found
      cases found
    refine ⟨t', more, ?_, holds', fun s => ?_⟩
    · have counts : true = true ∨ c.str ∈ words := .inl rfl
      rw [if_pos counts, found]
      show (t.getIdentifier c.str >>= _) = _
      rw [run]
      rfl
    · rw [List.mem_append]
      constructor
      · rintro (old | new)
        · exact .inl old
        · exact .inr ⟨rfl, only s new⟩
      · rintro (old | ⟨-, rfl⟩)
        · exact .inl old
        · exact List.mem_append.mp inside
  | false =>
    have lookup := holds.getIdentifierNoCreate c.str
    refine ⟨t, [], ?_, by rwa [List.append_nil], fun s => by simp⟩
    show (t.getIdentifierNoCreate c.str >>= _) = _
    rw [lookup, List.append_nil]
    by_cases member : c.str ∈ words
    · rw [if_pos (.inr member)]
      rfl
    · rw [if_neg (by simpa using member), identOf_none.mpr member]
      rfl

theorem Holds.calls (holds : t.Holds words) (calls : List Call) :
    ∃ ids t' more, t.calls calls = .ok (ids, t') ∧ t'.Holds (words ++ more) ∧
      (∀ s, s ∈ words ++ more ↔ s ∈ words ∨ s ∈ created calls) ∧ ids.length = calls.length ∧
        ∀ i c, calls[i]? = some c → ids[i]? = some
          (if c.create ∨ c.str ∈ words ∨ c.str ∈ created (calls.take i) then identOf (words ++ more) c.str
            else none) := by
  induction calls generalizing t words with
  | nil =>
    refine ⟨[], t, [], rfl, by rwa [List.append_nil], fun s => by simp [created], rfl, fun i c at' => ?_⟩
    simp at at'
  | cons c rest ih =>
    obtain ⟨t₁, more, run, holds₁, strings⟩ := holds.call c
    obtain ⟨ids, t', more', run', holds', strings', length, results⟩ := ih holds₁
    have all : ∀ s, s ∈ words ++ more ++ more' ↔ s ∈ words ∨ s ∈ created (c :: rest) := by
      intro s
      rw [strings', strings, mem_created, mem_created]
      simp only [List.mem_cons, exists_eq_or_imp]
      tauto
    refine ⟨(if c.create ∨ c.str ∈ words then identOf (words ++ more) c.str else none) :: ids, t', more ++ more',
      ?_, ?_, ?_, congrArg Nat.succ length, fun i d at' => ?_⟩
    · unfold NameTable.calls
      rw [run]
      show (t₁.calls rest >>= _) = _
      rw [run']
      rfl
    · rwa [← List.append_assoc]
    · rwa [← List.append_assoc]
    · cases i with
      | zero =>
        obtain rfl : c = d := by simpa using at'
        simp only [List.getElem?_cons_zero, List.take_zero, ← List.append_assoc]
        by_cases here : c.create = true ∨ c.str ∈ words
        · have inside : c.str ∈ words ++ more := (strings c.str).mpr (here.symm.imp_right fun create => ⟨create, rfl⟩)
          rw [if_pos here, if_pos (here.imp_right .inl), identOf_append inside]
        · rw [if_neg here, if_neg (by simpa [created] using here)]
      | succ i =>
        have result := results i d (by simpa using at')
        rw [List.getElem?_cons_succ, result, List.append_assoc]
        congr 1
        refine if_congr ?_ rfl rfl
        rw [strings, List.take_succ_cons, mem_created, mem_created]
        simp only [List.mem_cons, exists_eq_or_imp]
        tauto

theorem initial_holds : NameTable.initial.Holds [] where
  stores :=
    { last := rfl
      strings := (List.append_nil _).symm
      name := by
        intro k bound
        have zero : k = 0 := Nat.le_zero.mp bound
        subst zero
        decide +kernel
      hash := fun k small => absurd small (Nat.not_lt_zero k)
      nodup := List.nodup_nil }
  size := ⟨10, rfl⟩
  chained := by
    refine ⟨fun _ => [], ⟨fun _ => rfl, fun _ _ _ _ member => absurd member List.not_mem_nil, ?_⟩,
      fun _ _ member => absurd member List.not_mem_nil⟩
    intro id linked
    refine absurd ?_ linked
    unfold links
    exact if_neg fun inside => absurd (Nat.lt_of_le_of_lt inside.1 inside.2) (Nat.lt_irrefl _)

/-- Calls return the same identifier exactly for equal strings: each string has one identifier, which a
lookup that creates an entry always returns, and one that does not returns from the first creation on. The
identifier has the string as its image. -/
theorem calls_identify (calls : List Call) :
    ∃ ids t, NameTable.initial.calls calls = .ok (ids, t) ∧ ids.length = calls.length ∧
      ∃ ident : List Character → NameId, (∀ s ∈ created calls, ∀ s' ∈ created calls, ident s = ident s' → s = s') ∧
        (∀ i c, calls[i]? = some c → ids[i]? = some
          (if c.create ∨ c.str ∈ created (calls.take i) then some (ident c.str) else none)) ∧
        ∀ s ∈ created calls, t.image (ident s) = .ok s ∧ t.getNameLength (ident s) = .ok s.length := by
  obtain ⟨ids, t, words, run, holds, strings, length, results⟩ := initial_holds.calls calls
  rw [List.nil_append] at holds strings results
  have found : ∀ s ∈ created calls, ∃ k, ∃ small : k < words.length, words[k] = s ∧
      identOf words s = some (firstNameId + k) := by
    intro s member
    have inside : s ∈ words := (strings s).mpr (.inr member)
    obtain ⟨k, small, isS⟩ := List.mem_iff_getElem.mp inside
    exact ⟨k, small, isS, isS ▸ identOf_some holds.stores.nodup small⟩
  refine ⟨ids, t, run, length, fun s => (identOf words s).getD 0, ?_, ?_, ?_⟩
  · intro s member s' member' same
    obtain ⟨k, small, -, isS⟩ := found s member
    obtain ⟨k', small', -, isS'⟩ := found s' member'
    simp only [isS, isS', Option.getD_some] at same
    exact identOf_inj isS (same ▸ isS')
  · intro i c at'
    rw [results i c at']
    by_cases here : c.create = true ∨ c.str ∈ created (calls.take i)
    · have inside : c.str ∈ created calls := by
        rcases here with create | before
        · exact mem_created.mpr ⟨c, List.mem_of_getElem? at', create, rfl⟩
        · obtain ⟨d, member, create, isStr⟩ := mem_created.mp before
          exact mem_created.mpr ⟨d, List.mem_of_mem_take member, create, isStr⟩
      obtain ⟨k, -, -, isStr⟩ := found c.str inside
      rw [if_pos here, if_pos (by tauto)]
      simp [isStr]
    · rw [if_neg here, if_neg (by simpa using here)]
  · intro s member
    obtain ⟨k, small, word, isS⟩ := found s member
    simp only [isS, Option.getD_some]
    rw [holds.stores.image small, holds.stores.getNameLength small, word]
    exact ⟨rfl, rfl⟩

end NameTable

end Ghdl.Names
