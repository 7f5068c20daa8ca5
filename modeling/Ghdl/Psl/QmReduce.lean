import Ghdl.Psl.Qm

/-!
# Reduction keeps the value

A prime covers the values of the terms it agrees with. `Merge` adds the values that its prime covers to those
the set covers, whatever primes it joins or drops on the way, and `Reduce` returns a node with the value of
its argument. The argument may have a constant only where no negation applies to it: the set of a negated
constant is the one of the constant.
-/

namespace Ghdl.Psl

namespace Prime

/-- The prime agrees with the values of the terms. -/
def Covers (values : Nat → Bool) (p : Prime) : Prop :=
  ∀ i, p.set.getLsbD i = true → values i = p.val.getLsbD i

/-- A prime of the set agrees with the values. -/
def Any (values : Nat → Bool) (ps : List Prime) : Prop := ∃ p ∈ ps, Covers values p

/-- The terms of the prime are among the first ones. -/
def Inside (length : Nat) (p : Prime) : Prop := ∀ i, p.set.getLsbD i = true → i < length

variable {values values' : Nat → Bool} {p q l r t : Prime} {ps : List Prime} {v : BitVec 16}
  {i j length length' : Nat} {append : Bool}

@[simp] theorem any_nil : ¬Any values [] := fun ⟨_, member, _⟩ => List.not_mem_nil member

@[simp] theorem any_cons : Any values (p :: ps) ↔ Covers values p ∨ Any values ps := by
  simp [Any]

theorem getLsbD_term (inside : j < 16) : (term i).getLsbD j = decide (i = j) := by
  unfold term
  rw [← BitVec.twoPow_eq, BitVec.getLsbD_twoPow]
  by_cases same : i = j
  · simp [same, inside]
  · simp [same]

theorem and_term (inside : i < 16) (v : BitVec 16) : v &&& term i = 0#16 ↔ v.getLsbD i = false := by
  constructor
  · intro none
    have bit := congrArg (fun bits => bits.getLsbD i) none
    simpa [getLsbD_term inside] using bit
  · intro clear
    refine BitVec.eq_of_getLsbD_eq fun j bound => ?_
    rw [BitVec.getLsbD_and, getLsbD_term bound]
    by_cases same : i = j
    · simp [← same, clear]
    · simp [same]

/-- A vector with `V and -V = V` has at most one bit. -/
theorem one_bit (single : v &&& -v = v) (first : v.getLsbD i = true) (second : v.getLsbD j = true) : i = j := by
  have below : ∀ {i j}, v.getLsbD i = true → v.getLsbD j = true → ¬i < j := by
    intro i j first second less
    have bound : j < 16 := BitVec.lt_of_getLsbD second
    have bit : (v &&& -v).getLsbD j = true := by rw [single, second]
    have lower : ∃ k < j, v.getLsbD k = true := ⟨i, less, first⟩
    rw [BitVec.getLsbD_and, BitVec.getLsbD_neg, second, decide_eq_true bound, decide_eq_true lower] at bit
    exact absurd bit (by decide)
  exact Nat.le_antisymm (Nat.not_lt.mp (below second first)) (Nat.not_lt.mp (below first second))

theorem Included.covers (included : Included l r) (covers : Covers values l) : Covers values r := by
  obtain ⟨sets, vals⟩ := included
  intro i member
  have inSet : l.set.getLsbD i = true := by
    have bit := congrArg (fun bits => bits.getLsbD i) sets
    simpa [member] using bit
  have sameVal : l.val.getLsbD i = r.val.getLsbD i := by
    have bit := congrArg (fun bits => bits.getLsbD i) vals
    simpa [member] using bit
  rw [covers i inSet, sameVal]

theorem getLsbD_and_not (a v : BitVec 16) (i : Nat) : (a &&& ~~~v).getLsbD i = (a.getLsbD i && !v.getLsbD i) := by
  rw [BitVec.getLsbD_and, BitVec.getLsbD_not]
  cases held : a.getLsbD i
  · rfl
  · simp [BitVec.lt_of_getLsbD held]

theorem mem_drop : (t.drop v).set.getLsbD i = true ↔ t.set.getLsbD i = true ∧ v.getLsbD i = false := by
  unfold Prime.drop
  rw [getLsbD_and_not, Bool.and_eq_true, Bool.not_eq_true']

theorem val_drop (stays : v.getLsbD i = false) : (t.drop v).val.getLsbD i = t.val.getLsbD i := by
  unfold Prime.drop
  rw [getLsbD_and_not, stays, Bool.not_false, Bool.and_true]

theorem Covers.drop (covers : Covers values t) (v : BitVec 16) : Covers values (t.drop v) := by
  intro i member
  obtain ⟨inSet, stays⟩ := mem_drop.mp member
  rw [covers i inSet, val_drop stays]

theorem covers_of_drop (single : v &&& -v = v) (terms : ∀ i, p.set.getLsbD i = true → t.set.getLsbD i = true)
    (differ : ∀ i, p.set.getLsbD i = true → (v.getLsbD i = false → t.val.getLsbD i = p.val.getLsbD i) ∧
      (v.getLsbD i = true → t.val.getLsbD i = !p.val.getLsbD i))
    (covers : Covers values (t.drop v)) : Covers values t ∨ Covers values p := by
  have outside : ∀ i, t.set.getLsbD i = true → v.getLsbD i = false → values i = t.val.getLsbD i := by
    intro i member clear
    rw [covers i (mem_drop.mpr ⟨member, clear⟩), val_drop clear]
  by_cases agrees : ∀ i, t.set.getLsbD i = true → v.getLsbD i = true → values i = t.val.getLsbD i
  · left
    intro i member
    cases bit : v.getLsbD i with
    | true => exact agrees i member bit
    | false => exact outside i member bit
  right
  simp only [not_forall] at agrees
  obtain ⟨k, inSet, bitK, disagrees⟩ := agrees
  intro i member
  cases bit : v.getLsbD i with
  | false => rw [outside i (terms i member) bit, (differ i member).1 bit]
  | true =>
    have same : i = k := one_bit single bit bitK
    subst same
    have opposite := (differ i member).2 bit
    cases value : values i
    · cases held : t.val.getLsbD i
      · exact absurd (value.trans held.symm) disagrees
      · rw [held] at opposite
        cases expected : p.val.getLsbD i
        · rfl
        · rw [expected] at opposite
          exact absurd opposite (by decide)
    · cases held : t.val.getLsbD i
      · rw [held] at opposite
        cases expected : p.val.getLsbD i
        · rw [expected] at opposite
          exact absurd opposite (by decide)
        · rfl
      · exact absurd (value.trans held.symm) disagrees

theorem IsOneChangeSame.covers (same : IsOneChangeSame p t)
    (covers : Covers values (t.drop (t.val ^^^ p.val))) : Covers values t ∨ Covers values p := by
  obtain ⟨sets, single⟩ := same
  rw [BitVec.xor_comm] at covers
  refine covers_of_drop single (fun i member => by rwa [← sets]) (fun i _ => ?_) covers
  rw [BitVec.getLsbD_xor]
  cases p.val.getLsbD i <;> cases t.val.getLsbD i <;> simp

theorem IsOneChange.covers (change : IsOneChange p t)
    (covers : Covers values (t.drop ((t.val ^^^ p.val) &&& p.set))) : Covers values t ∨ Covers values p := by
  obtain ⟨sets, single⟩ := change
  rw [BitVec.xor_comm] at covers
  refine covers_of_drop single (fun i member => ?_) (fun i member => ?_) covers
  · have bit := congrArg (fun bits => bits.getLsbD i) sets
    simpa [member] using bit.symm
  · rw [BitVec.getLsbD_and, BitVec.getLsbD_xor, member]
    cases p.val.getLsbD i <;> cases t.val.getLsbD i <;> simp

theorem IsOneChangeSame.drop (same : IsOneChangeSame p t) (covers : Covers values p) :
    Covers values (t.drop (t.val ^^^ p.val)) := by
  intro i member
  obtain ⟨inSet, stays⟩ := mem_drop.mp member
  rw [covers i (same.1 ▸ inSet), val_drop stays]
  rw [BitVec.getLsbD_xor] at stays
  exact (bne_eq_false_iff_eq.mp stays).symm

/-- The prime that `Merge` leaves in the place of T. -/
def joined (p t : Prime) : Prime :=
  if IsOneChange p t then t.drop ((t.val ^^^ p.val) &&& p.set)
  else if IsOneChangeSame p t then t.drop (t.val ^^^ p.val) else t

theorem covers_of_joined (covers : Covers values (joined p t)) : Covers values t ∨ Covers values p := by
  unfold joined at covers
  split at covers
  · next change => exact change.covers covers
  split at covers
  · next same => exact same.covers covers
  · exact .inl covers

theorem Covers.joined (covers : Covers values t) : Covers values (joined p t) := by
  unfold Prime.joined
  split
  · exact covers.drop _
  split
  · exact covers.drop _
  · exact covers

theorem IsOneChangeSame.joined (same : IsOneChangeSame p t) (covers : Covers values p) :
    Covers values (joined p t) := by
  unfold Prime.joined
  split
  · intro i member
    obtain ⟨inSet, stays⟩ := mem_drop.mp member
    have inSet' : p.set.getLsbD i = true := same.1 ▸ inSet
    rw [covers i inSet', val_drop stays]
    rw [BitVec.getLsbD_and, BitVec.getLsbD_xor, inSet', Bool.and_true] at stays
    exact (bne_eq_false_iff_eq.mp stays).symm
  · exact same.drop covers

theorem mergeFrom_cons (outside : ¬Included p t) (outside' : ¬Included t p) : mergeFrom p (t :: ps) append =
      joined p t :: mergeFrom p ps (if IsOneChangeSame p t then false else append) := by
  rw [mergeFrom, if_neg outside, if_neg outside']
  rfl

/-- `Merge` covers what the set or the prime covers. -/
theorem any_of_mergeFrom (covers : Any values (mergeFrom p ps append)) : Any values ps ∨ Covers values p := by
  induction ps generalizing append with
  | nil =>
    unfold mergeFrom at covers
    split at covers
    · simpa using covers
    · exact absurd covers any_nil
  | cons t ps ih =>
    by_cases already : Included p t
    · rw [mergeFrom, if_pos already] at covers
      exact .inl covers
    by_cases wider : Included t p
    · rw [mergeFrom, if_neg already, if_pos wider, any_cons] at covers
      rcases covers with covers | covers
      · exact .inr covers
      · exact (ih covers).imp_left fun rest => any_cons.mpr (.inr rest)
    · rw [mergeFrom_cons already wider, any_cons] at covers
      rcases covers with covers | covers
      · exact (covers_of_joined covers).imp_left fun first => any_cons.mpr (.inl first)
      · exact (ih covers).imp_left fun rest => any_cons.mpr (.inr rest)

theorem Any.mergeFrom (covers : Any values ps) : Any values (mergeFrom p ps append) := by
  induction ps generalizing append with
  | nil => exact absurd covers any_nil
  | cons t ps ih =>
    by_cases already : Included p t
    · rw [Prime.mergeFrom, if_pos already]
      exact covers
    by_cases wider : Included t p
    · rw [Prime.mergeFrom, if_neg already, if_pos wider, any_cons]
      exact (any_cons.mp covers).imp wider.covers ih
    · rw [mergeFrom_cons already wider, any_cons]
      exact (any_cons.mp covers).imp Covers.joined ih

theorem Covers.mergeFrom (covers : Covers values p) : Any values (mergeFrom p ps true) := by
  induction ps with
  | nil => exact ⟨p, by simp [Prime.mergeFrom], covers⟩
  | cons t ps ih =>
    by_cases already : Included p t
    · rw [Prime.mergeFrom, if_pos already, any_cons]
      exact .inl (already.covers covers)
    by_cases wider : Included t p
    · rw [Prime.mergeFrom, if_neg already, if_pos wider, any_cons]
      exact .inl covers
    rw [mergeFrom_cons already wider, any_cons]
    by_cases same : IsOneChangeSame p t
    · exact .inl (same.joined covers)
    · rw [if_neg same]
      exact .inr ih

@[simp] theorem any_merge : Any values (merge ps p) ↔ Any values ps ∨ Covers values p :=
  ⟨any_of_mergeFrom, fun side => side.elim Any.mergeFrom Covers.mergeFrom⟩

theorem covers_and (conjunction : l.and r = some p) : Covers values p ↔ Covers values l ∧ Covers values r := by
  unfold Prime.and at conjunction
  split at conjunction
  · next agree =>
    obtain rfl := Option.some.inj conjunction
    have equal : ∀ i, l.set.getLsbD i = true → r.set.getLsbD i = true →
        l.val.getLsbD i = r.val.getLsbD i := by
      intro i inLeft inRight
      have bit := congrArg (fun bits => bits.getLsbD i) agree
      simpa [inLeft, inRight] using bit
    constructor
    · intro covers
      constructor
      · intro i inLeft
        rw [covers i (by simp [inLeft])]
        show ((r.set &&& r.val) ||| ((l.set &&& ~~~r.set) &&& l.val)).getLsbD i = _
        rw [BitVec.getLsbD_or, BitVec.getLsbD_and, BitVec.getLsbD_and, getLsbD_and_not, inLeft]
        cases inRight : r.set.getLsbD i
        · simp
        · simp [equal i inLeft inRight]
      · intro i inRight
        rw [covers i (by simp [inRight])]
        simp [inRight]
    · rintro ⟨left, right⟩ i member
      show values i = ((r.set &&& r.val) ||| ((l.set &&& ~~~r.set) &&& l.val)).getLsbD i
      rw [BitVec.getLsbD_or, BitVec.getLsbD_and, BitVec.getLsbD_and, getLsbD_and_not]
      cases inRight : r.set.getLsbD i
      · have inLeft : l.set.getLsbD i = true := by simpa [inRight] using member
        rw [left i inLeft, inLeft]
        simp
      · rw [right i inRight]
        simp
  · exact absurd conjunction (by simp)

theorem not_covers_and (conflict : l.and r = none) (left : Covers values l) : ¬Covers values r := by
  intro right
  unfold Prime.and at conflict
  split at conflict
  · exact absurd conflict (by simp)
  · next disagree =>
    refine disagree (BitVec.eq_of_getLsbD_eq fun i bound => ?_)
    cases inLeft : l.set.getLsbD i
    · simp [inLeft]
    · cases inRight : r.set.getLsbD i
      · simp [inRight]
      · simp [← left i inLeft, ← right i inRight]

end Prime

open Prime

variable {values values' : Nat → Bool} {l r ps res : List Prime} {p lp : Prime} {length length' : Nat}

theorem any_foldl_merge : Any values (ps.foldl merge res) ↔ Any values res ∨ Any values ps := by
  induction ps generalizing res with
  | nil => simp
  | cons p ps ih => rw [List.foldl_cons, ih, any_merge, any_cons, or_assoc]

theorem any_buildPrimesOr (run : buildPrimesOr l r = .ok ps) : Any values ps ↔ Any values l ∨ Any values r := by
  unfold buildPrimesOr at run
  split at run
  · exact absurd run (by simp)
  · obtain rfl := Except.ok.inj run
    rw [any_foldl_merge, any_foldl_merge]
    simp

theorem any_and_row : Any values (r.foldl (mergeAnd lp) res) ↔ Any values res ∨ Covers values lp ∧ Any values r := by
  induction r generalizing res with
  | nil => simp
  | cons rp r ih =>
    rw [List.foldl_cons, ih, mergeAnd]
    cases conjunction : lp.and rp with
    | none =>
      have conflict := fun left : Covers values lp => not_covers_and conjunction left
      rw [any_cons]
      tauto
    | some p =>
      have both : Covers values p ↔ Covers values lp ∧ Covers values rp := covers_and conjunction
      rw [any_merge, any_cons, both]
      tauto

theorem any_and_rows :
    Any values (l.foldl (fun res lp => r.foldl (mergeAnd lp) res) res) ↔ Any values res ∨ Any values l ∧ Any values r := by
  induction l generalizing res with
  | nil => simp
  | cons lp l ih =>
    rw [List.foldl_cons, ih, any_and_row, any_cons]
    tauto

theorem any_buildPrimesAnd (run : buildPrimesAnd l r = .ok ps) : Any values ps ↔ Any values l ∧ Any values r := by
  unfold buildPrimesAnd at run
  split at run
  · exact absurd run (by simp)
  · obtain rfl := Except.ok.inj run
    rw [any_and_rows]
    simp

namespace Prime

/-- Every term of the set is among the first ones. -/
def AllInside (length : Nat) (ps : List Prime) : Prop := ∀ p ∈ ps, Inside length p

theorem Inside.mono (inside : Inside length p) (more : length ≤ length') : Inside length' p :=
  fun i member => Nat.lt_of_lt_of_le (inside i member) more

theorem AllInside.mono (inside : AllInside length ps) (more : length ≤ length') : AllInside length' ps :=
  fun p member => (inside p member).mono more

theorem Inside.drop (inside : Inside length p) (v : BitVec 16) : Inside length (p.drop v) :=
  fun i member => inside i (mem_drop.mp member).1

theorem Inside.joined {t : Prime} (inside : Inside length t) : Inside length (joined p t) := by
  unfold Prime.joined
  split
  · exact inside.drop _
  split
  · exact inside.drop _
  · exact inside

theorem AllInside.mergeFrom {append : Bool} (all : AllInside length ps) (inside : Inside length p) :
    AllInside length (mergeFrom p ps append) := by
  induction ps generalizing append with
  | nil =>
    intro q member
    unfold Prime.mergeFrom at member
    split at member
    · rw [List.mem_singleton.mp member]
      exact inside
    · exact absurd member List.not_mem_nil
  | cons t ps ih =>
    have first := all t List.mem_cons_self
    have rest : AllInside length ps := fun q member => all q (List.mem_cons_of_mem _ member)
    by_cases already : Included p t
    · rw [Prime.mergeFrom, if_pos already]
      exact all
    by_cases wider : Included t p
    · rw [Prime.mergeFrom, if_neg already, if_pos wider]
      exact List.forall_mem_cons.mpr ⟨inside, ih rest⟩
    · rw [mergeFrom_cons already wider]
      exact List.forall_mem_cons.mpr ⟨first.joined, ih rest⟩

theorem AllInside.foldl_merge (all : AllInside length res) (inside : AllInside length ps) :
    AllInside length (ps.foldl merge res) := by
  induction ps generalizing res with
  | nil => exact all
  | cons p ps ih =>
    exact ih (all.mergeFrom (inside p List.mem_cons_self)) fun q member => inside q (List.mem_cons_of_mem _ member)

theorem Inside.and (conjunction : lp.and q = some p) (left : Inside length lp)
    (right : Inside length q) : Inside length p := by
  unfold Prime.and at conjunction
  split at conjunction
  · obtain rfl := Option.some.inj conjunction
    intro i member
    rcases (by simpa using member : lp.set.getLsbD i = true ∨ q.set.getLsbD i = true) with member | member
    · exact left i member
    · exact right i member
  · exact absurd conjunction (by simp)

theorem AllInside.and_row (all : AllInside length res) (left : Inside length lp) (right : AllInside length r) :
    AllInside length (r.foldl (mergeAnd lp) res) := by
  induction r generalizing res with
  | nil => exact all
  | cons rp r ih =>
    have rest : AllInside length r := fun q member => right q (List.mem_cons_of_mem _ member)
    rw [List.foldl_cons, mergeAnd]
    cases conjunction : lp.and rp with
    | none => exact ih all rest
    | some p => exact ih (all.mergeFrom (Inside.and conjunction left (right rp List.mem_cons_self))) rest

theorem AllInside.and_rows (all : AllInside length res) (left : AllInside length l) (right : AllInside length r) :
    AllInside length (l.foldl (fun res lp => r.foldl (mergeAnd lp) res) res) := by
  induction l generalizing res with
  | nil => exact all
  | cons lp l ih =>
    rw [List.foldl_cons]
    exact ih (all.and_row (left lp List.mem_cons_self) right) fun q member => left q (List.mem_cons_of_mem _ member)

theorem AllInside.nil : AllInside length [] := fun _ member => absurd member List.not_mem_nil

theorem allInside_buildPrimesAnd (run : buildPrimesAnd l r = .ok ps) (left : AllInside length l)
    (right : AllInside length r) : AllInside length ps := by
  unfold buildPrimesAnd at run
  split at run
  · exact absurd run (by simp)
  · obtain rfl := Except.ok.inj run
    exact AllInside.nil.and_rows left right

theorem allInside_buildPrimesOr (run : buildPrimesOr l r = .ok ps) (left : AllInside length l)
    (right : AllInside length r) : AllInside length ps := by
  unfold buildPrimesOr at run
  split at run
  · exact absurd run (by simp)
  · obtain rfl := Except.ok.inj run
    exact (AllInside.nil.foldl_merge left).foldl_merge right

end Prime

/-- The values of the terms in a letter. -/
def termValues (terms : List BoolNode) (letter : Valuation) (i : Nat) : Bool :=
  (terms[i]?.map (BoolNode.eval letter)).getD false

theorem covers_congr (inside : Inside length p) (same : ∀ i < length, values i = values' i) :
    Covers values p ↔ Covers values' p := by
  constructor
  · intro covers i member
    rw [← same i (inside i member), covers i member]
  · intro covers i member
    rw [same i (inside i member), covers i member]

theorem any_congr (inside : AllInside length ps) (same : ∀ i < length, values i = values' i) :
    Any values ps ↔ Any values' ps := by
  unfold Any
  constructor
  · rintro ⟨p, member, covers⟩
    exact ⟨p, member, (covers_congr (inside p member) same).mp covers⟩
  · rintro ⟨p, member, covers⟩
    exact ⟨p, member, (covers_congr (inside p member) same).mpr covers⟩

variable {letter : Valuation}

theorem termValues_append {terms more : List BoolNode} {i : Nat} (bound : i < terms.length) :
    termValues (terms ++ more) letter i = termValues terms letter i := by
  unfold termValues
  rw [List.getElem?_append_left bound]

/-- An expression of the design or the end of the simulation. -/
def BoolNode.IsAtom : BoolNode → Prop
  | .hdlExpr _ | .eos => True
  | _ => False

/-- The table of the terms: at most `Max_Terms` different atoms. -/
structure TermsOk (terms : List BoolNode) : Prop where
  atoms : ∀ n ∈ terms, n.IsAtom
  bound : terms.length ≤ maxTerms

variable {index : Nat}

theorem termIndex_spec {terms terms' : List BoolNode} {n : BoolNode}
    (known : TermsOk terms) (atom : n.IsAtom) (run : termIndex terms n = .ok (index, terms')) :
    TermsOk terms' ∧ (∃ more, terms' = terms ++ more) ∧ terms'[index]? = some n := by
  unfold termIndex at run
  split at run
  · next place found =>
    obtain ⟨rfl, rfl⟩ : place = index ∧ terms = terms' := by simpa using run
    obtain ⟨bound, here, -⟩ := List.idxOf?_eq_some_iff.mp found
    refine ⟨known, ⟨[], (List.append_nil _).symm⟩, ?_⟩
    rw [List.getElem?_eq_getElem bound, here]
  · split at run
    · exact absurd run (by simp)
    · next room =>
      obtain ⟨rfl, rfl⟩ : terms.length = index ∧ terms ++ [n] = terms' := by simpa using run
      refine ⟨⟨?_, ?_⟩, ⟨[n], rfl⟩, by simp⟩
      · intro m member
        rcases List.mem_append.mp member with member | member
        · exact known.atoms m member
        · rw [List.mem_singleton.mp member]
          exact atom
      · have below := Nat.lt_of_le_of_ne known.bound room
        rw [List.length_append]
        exact below

/-- No negation applies to a constant. -/
def BoolNode.Polar : Bool → BoolNode → Prop
  | negate, .trueNode | negate, .falseNode => negate = false
  | _, .hdlExpr _ | _, .eos => True
  | negate, .notBool _ boolean => Polar (!negate) boolean
  | negate, .andBool _ left right | negate, .orBool _ left right =>
    Polar negate left ∧ Polar negate right
  | negate, .impBool _ left right => Polar (!negate) left ∧ Polar negate right

/-- What `Build_Primes` returns for a node. -/
structure Primes (terms : List BoolNode) (n : BoolNode) (negate : Bool) (ps : List Prime)
    (terms' : List BoolNode) : Prop where
  known : TermsOk terms'
  grows : ∃ more, terms' = terms ++ more
  inside : AllInside terms'.length ps
  value : n.Polar negate → ∀ letter, Any (termValues terms' letter) ps ↔ n.eval letter = !negate

theorem Primes.mono {terms terms' more : List BoolNode} {n : BoolNode} {negate : Bool} {ps : List Prime}
    (primes : Primes terms n negate ps terms') (polar : n.Polar negate) (letter : Valuation) :
    Any (termValues (terms' ++ more) letter) ps ↔ n.eval letter = !negate := by
  rw [← primes.value polar letter]
  exact any_congr primes.inside fun i bound => termValues_append bound

theorem covers_literal {negate : Bool} (bound : index < 16) :
    Covers values (literalPrime negate index) ↔ values index = !negate := by
  have only : ∀ i, (term index).getLsbD i = true → i = index := by
    intro i member
    rw [getLsbD_term (BitVec.lt_of_getLsbD member)] at member
    exact (decide_eq_true_iff.mp member).symm
  have self : (term index).getLsbD index = true := by
    rw [getLsbD_term bound]
    exact decide_eq_true rfl
  unfold literalPrime Covers
  cases negate with
  | true =>
    constructor
    · exact fun covers => (covers index self).trans (by simp)
    · intro held i member
      rw [only i member]
      simpa using held
  | false =>
    constructor
    · exact fun covers => (covers index self).trans self
    · intro held i member
      rw [only i member, held]
      exact self.symm

theorem inside_literal {negate : Bool} (bound : index < length) : Inside length (literalPrime negate index) := by
  intro i member
  have member : (term index).getLsbD i = true := member
  rw [getLsbD_term (BitVec.lt_of_getLsbD member)] at member
  exact (decide_eq_true_iff.mp member) ▸ bound

variable {terms terms₁ terms' : List BoolNode} {n left right : BoolNode} {negate negate' : Bool}

theorem termIndex_primes (known : TermsOk terms) (atom : n.IsAtom)
    (run : termIndex terms n = .ok (index, terms')) : Primes terms n negate [literalPrime negate index] terms' := by
  obtain ⟨known', grows, here⟩ := termIndex_spec known atom run
  have bound : index < terms'.length := (List.getElem?_eq_some_iff.mp here).1
  have bound' : index < 16 := Nat.lt_of_lt_of_le bound (Nat.le_trans known'.bound (by decide))
  refine ⟨known', grows, fun p member => ?_, fun _ letter => ?_⟩
  · rw [List.mem_singleton.mp member]
    exact inside_literal bound
  · rw [any_cons, covers_literal bound']
    simp [termValues, here]

/-- The sets of two nodes are joined: by `Build_Primes_And`, or by `Build_Primes_Or`. -/
theorem Primes.joined {l r : List Prime} {whole : BoolNode} {conjunction polarity : Bool}
    (first : Primes terms left negate l terms₁) (second : Primes terms₁ right negate' r terms')
    (joined : joinPrimes conjunction l r = .ok ps) (polar : whole.Polar polarity → left.Polar negate ∧ right.Polar negate')
    (eval : ∀ letter, (if conjunction then left.eval letter = !negate ∧ right.eval letter = !negate'
      else left.eval letter = !negate ∨ right.eval letter = !negate') ↔ whole.eval letter = !polarity) :
    Primes terms whole polarity ps terms' := by
  obtain ⟨more, rfl⟩ := first.grows
  obtain ⟨more', rfl⟩ := second.grows
  have insideL := first.inside.mono (List.length_append ▸ Nat.le_add_right _ more'.length)
  cases conjunction with
  | true =>
    refine ⟨second.known, ⟨more ++ more', List.append_assoc ..⟩, allInside_buildPrimesAnd joined insideL second.inside,
      fun polar' letter => ?_⟩
    rw [← eval letter, any_buildPrimesAnd joined, first.mono (polar polar').1, second.value (polar polar').2]
    rfl
  | false =>
    refine ⟨second.known, ⟨more ++ more', List.append_assoc ..⟩, allInside_buildPrimesOr joined insideL second.inside,
      fun polar' letter => ?_⟩
    rw [← eval letter, any_buildPrimesOr joined, first.mono (polar polar').1, second.value (polar polar').2]
    rfl

theorem buildOperands_run {conjunction : Bool} {first : Outcome (List Prime × List BoolNode)}
    {second : List BoolNode → Outcome (List Prime × List BoolNode)}
    (run : buildOperands conjunction first second = .ok (ps, terms')) :
    ∃ l terms₁ r, first = .ok (l, terms₁) ∧ second terms₁ = .ok (r, terms') ∧ joinPrimes conjunction l r = .ok ps := by
  unfold buildOperands at run
  cases left : first with
  | error e => simp [left, bind, Except.bind] at run
  | ok l =>
    cases right : second l.2 with
    | error e => simp [left, right, bind, Except.bind] at run
    | ok r =>
      cases joined : joinPrimes conjunction l.1 r.1 with
      | error e => simp [left, right, joined, bind, Except.bind] at run
      | ok res =>
        obtain ⟨rfl, rfl⟩ : res = ps ∧ r.2 = terms' := by
          simpa [left, right, joined, bind, Except.bind, pure, Except.pure] using run
        exact ⟨l.1, l.2, r.1, rfl, right, joined⟩

theorem buildPrimes_atom (known : TermsOk terms) (atom : n.IsAtom)
    (run : buildPrimes terms n negate = .ok (ps, terms')) : Primes terms n negate ps terms' := by
  have index : buildPrimes terms n negate =
      (termIndex terms n).map fun found => ([literalPrime negate found.1], found.2) := by
    cases n with
    | hdlExpr expr => rfl
    | eos => rfl
    | _ => exact atom.elim
  rw [index] at run
  cases found : termIndex terms n with
  | error e => simp [found, Except.map] at run
  | ok result =>
    obtain ⟨rfl, rfl⟩ : [literalPrime negate result.1] = ps ∧ result.2 = terms' := by
      simpa [found, Except.map] using run
    exact termIndex_primes known atom found

/-- `Build_Primes` with the negation pushed to the terms. -/
theorem buildPrimes_spec (known : TermsOk terms) (run : buildPrimes terms n negate = .ok (ps, terms')) :
    Primes terms n negate ps terms' := by
  induction n generalizing terms negate ps terms' with
  | hdlExpr expr =>
    have atom : (BoolNode.hdlExpr expr).IsAtom := trivial
    exact buildPrimes_atom known atom run
  | eos =>
    have atom : BoolNode.eos.IsAtom := trivial
    exact buildPrimes_atom known atom run
  | trueNode =>
    obtain ⟨rfl, rfl⟩ : [{ set := 0#16, val := 0#16 }] = ps ∧ terms = terms' := by
      simpa [buildPrimes] using run
    refine ⟨known, ⟨[], (List.append_nil _).symm⟩, fun p member i inSet => ?_, fun polar letter => ?_⟩
    · rw [List.mem_singleton.mp member] at inSet
      simp at inSet
    · have polar : negate = false := polar
      simp [polar, Covers]
  | falseNode =>
    obtain ⟨rfl, rfl⟩ : [] = ps ∧ terms = terms' := by simpa [buildPrimes] using run
    refine ⟨known, ⟨[], (List.append_nil _).symm⟩, AllInside.nil, fun polar letter => ?_⟩
    have polar : negate = false := polar
    simp [polar]
  | notBool origin boolean ih =>
    have primes := ih known run
    refine ⟨primes.known, primes.grows, primes.inside, fun polar letter => ?_⟩
    rw [primes.value polar letter, BoolNode.eval_not]
    cases boolean.eval letter <;> cases negate <;> decide
  | andBool origin left right ihLeft ihRight
  | orBool origin left right ihLeft ihRight
  | impBool origin left right ihLeft ihRight =>
    unfold buildPrimes at run
    obtain ⟨l, terms₁, r, first, second, joined⟩ := buildOperands_run run
    have primes := ihLeft known first
    have primes' := ihRight primes.known second
    cases negate <;> refine primes.joined primes' joined id fun letter => ?_ <;>
      simp only [BoolNode.eval_and, BoolNode.eval_or, BoolNode.eval_imp] <;>
      cases left.eval letter <;> cases right.eval letter <;> decide

theorem eval_literalNode {index : Nat} {letter : Valuation} (bound : index < 16) :
    (literalNode p index n).eval letter = true ↔ n.eval letter = p.val.getLsbD index := by
  unfold literalNode
  cases held : p.val.getLsbD index with
  | true =>
    rw [if_neg fun clear => absurd (held.symm.trans ((and_term bound _).mp clear)) (by decide)]
  | false =>
    rw [if_pos ((and_term bound _).mpr held), eval_buildBoolNot, Bool.not_eq_true']

/-- The loop of `Build_Node` adds the literals of its terms. -/
theorem eval_buildPrimeFrom {acc : Option BoolNode}
    (bound : index + terms.length ≤ 16) : ((buildPrimeFrom p terms index acc).getD .trueNode).eval letter = true ↔
      (acc.getD .trueNode).eval letter = true ∧ ∀ j n, terms[j]? = some n → p.set.getLsbD (index + j) = true →
          n.eval letter = p.val.getLsbD (index + j) := by
  induction terms generalizing index acc with
  | nil => simp [buildPrimeFrom]
  | cons n terms ih =>
    have here : index < 16 := by
      rw [List.length_cons] at bound
      omega
    have rest : index + 1 + terms.length ≤ 16 := by
      rw [List.length_cons] at bound
      omega
    have shift : (∀ j m, (n :: terms)[j]? = some m → p.set.getLsbD (index + j) = true →
          m.eval letter = p.val.getLsbD (index + j)) ↔
        (p.set.getLsbD index = true → n.eval letter = p.val.getLsbD index) ∧
          ∀ j m, terms[j]? = some m → p.set.getLsbD (index + 1 + j) = true →
            m.eval letter = p.val.getLsbD (index + 1 + j) := by
      constructor
      · intro all
        refine ⟨fun member => all 0 n rfl member, fun j m held member => ?_⟩
        have same : index + 1 + j = index + (j + 1) := by omega
        rw [same] at member ⊢
        exact all (j + 1) m held member
      · rintro ⟨first, others⟩ j m held member
        cases j with
        | zero =>
          obtain rfl : n = m := by simpa using held
          exact first member
        | succ j =>
          have same : index + 1 + j = index + (j + 1) := by omega
          rw [← same] at member ⊢
          exact others j m held member
    rw [shift]
    unfold buildPrimeFrom
    split
    · next clear =>
      rw [ih rest]
      have none : p.set.getLsbD index = false := (and_term here _).mp clear
      simp [none]
    · next set =>
      have member : p.set.getLsbD index = true := by
        cases held : p.set.getLsbD index with
        | true => rfl
        | false => exact absurd ((and_term here _).mpr held) set
      rw [ih rest, ← and_assoc]
      refine and_congr ?_ Iff.rfl
      have literal := @eval_literalNode p n index letter here
      cases acc with
      | none | some res => simp [literal, member]

theorem eval_buildPrimeNode (known : TermsOk terms) (inside : Inside terms.length p) :
    (buildPrimeNode terms p).eval letter = true ↔ Covers (termValues terms letter) p := by
  have bound : 0 + terms.length ≤ 16 := by
    rw [Nat.zero_add]
    exact Nat.le_trans known.bound (by decide)
  have literals : (∀ j n, terms[j]? = some n → p.set.getLsbD (0 + j) = true →
      n.eval letter = p.val.getLsbD (0 + j)) ↔ Covers (termValues terms letter) p := by
    constructor
    · intro all i member
      have here := inside i member
      have found : terms[i]? = some terms[i] := List.getElem?_eq_getElem here
      have value := all i _ found (by rwa [Nat.zero_add])
      rw [Nat.zero_add] at value
      rw [← value]
      simp [termValues, found]
    · intro covers j n found member
      rw [Nat.zero_add] at member ⊢
      rw [← covers j member]
      simp [termValues, found]
  unfold buildPrimeNode
  split
  · next empty =>
    refine iff_of_true rfl fun i member => ?_
    rw [empty] at member
    simp at member
  · rw [eval_buildPrimeFrom bound, literals]
    simp

theorem eval_foldl_or (known : TermsOk terms) (inside : AllInside terms.length ps)
    (first : BoolNode) : (ps.foldl (fun res p => buildBoolOr res (buildPrimeNode terms p)) first).eval letter = true ↔
      first.eval letter = true ∨ Any (termValues terms letter) ps := by
  induction ps generalizing first with
  | nil => simp
  | cons p ps ih =>
    rw [List.foldl_cons, ih fun q member => inside q (List.mem_cons_of_mem _ member), eval_buildBoolOr,
      Bool.or_eq_true, eval_buildPrimeNode known (inside p List.mem_cons_self), any_cons, or_assoc]

theorem eval_buildNode (known : TermsOk terms) (inside : AllInside terms.length ps) :
    (buildNode terms ps).eval letter = true ↔ Any (termValues terms letter) ps := by
  cases ps with
  | nil => simp [buildNode]
  | cons p ps =>
    unfold buildNode
    rw [eval_foldl_or known fun q member => inside q (List.mem_cons_of_mem _ member),
      eval_buildPrimeNode known (inside p List.mem_cons_self), any_cons]

/-- `Reduce` keeps the value of a node whose constants are not negated, and changes the terms only. -/
theorem Tables.reduce_spec {t t' : Tables} {reduced : BoolNode} (known : TermsOk t.terms)
    (polar : n.Polar false) (run : t.reduce n = .ok (reduced, t')) : (∀ letter, reduced.eval letter = n.eval letter) ∧
      ∃ terms, TermsOk terms ∧ t' = { t with terms } := by
  unfold Tables.reduce at run
  cases found : buildPrimes t.terms n false with
  | error e => simp [found, bind, Except.bind] at run
  | ok result =>
    obtain ⟨ps, terms⟩ := result
    obtain ⟨rfl, rfl⟩ : buildNode terms ps = reduced ∧ { t with terms } = t' := by
      simpa [found, bind, Except.bind, pure, Except.pure] using run
    have primes := buildPrimes_spec known found
    refine ⟨fun letter => ?_, terms, primes.known, rfl⟩
    have same : (buildNode terms ps).eval letter = true ↔ n.eval letter = true := by
      rw [eval_buildNode primes.known primes.inside, primes.value polar]
      exact Iff.rfl
    exact Bool.eq_iff_iff.mpr same

end Ghdl.Psl
