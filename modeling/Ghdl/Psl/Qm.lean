import Mathlib
import Ghdl.Psl.Nfas

/-!
# Reduction of boolean nodes

The sets of primes of `psl-qm`. A prime gives a value to some of the terms; a set of primes stands for the
disjunction of its primes. `Reduce` builds the set of a node and a node of the set. The set of a node is
built with the negation pushed to the terms, and `Merge` joins a prime to the ones that are already there.
-/

namespace Ghdl.Psl

/-- `Max_Terms`. -/
def maxTerms : Nat := 12

/-- `Prime_Type`: the terms of SET have their values in VAL. -/
structure Prime where
  val : BitVec 16
  set : BitVec 16
deriving DecidableEq, Repr

/-- The last value of `Len_Type`. -/
def maxPrimes : Nat := 2 ^ maxTerms

namespace Prime

/-- `Term`, numbered from zero. -/
def term (index : Nat) : BitVec 16 := 1#16 <<< index

/-- `Included`: every value of the terms that is in L is in R. -/
def Included (l r : Prime) : Prop := l.set ||| r.set = l.set ∧ l.val &&& r.set = r.val &&& r.set

instance (l r : Prime) : Decidable (Included l r) := inferInstanceAs (Decidable (_ ∧ _))

/-- `Is_One_Change_Same`: the primes have the same terms, and differ in at most one of them. -/
def IsOneChangeSame (l r : Prime) : Prop :=
  l.set = r.set ∧ (l.val ^^^ r.val) &&& -(l.val ^^^ r.val) = l.val ^^^ r.val

instance (l r : Prime) : Decidable (IsOneChangeSame l r) := inferInstanceAs (Decidable (_ ∧ _))

/-- `Is_One_Change`: the terms of L are terms of R, and differ in at most one of them. -/
def IsOneChange (l r : Prime) : Prop :=
  l.set ||| r.set = r.set ∧
    ((l.val ^^^ r.val) &&& l.set) &&& -((l.val ^^^ r.val) &&& l.set) = (l.val ^^^ r.val) &&& l.set

instance (l r : Prime) : Decidable (IsOneChange l r) := inferInstanceAs (Decidable (_ ∧ _))

/-- The prime without the terms V. -/
def drop (t : Prime) (v : BitVec 16) : Prime := { set := t.set &&& ~~~v, val := t.val &&& ~~~v }

/-- The loop of `Merge`, with `Do_Append`. -/
def mergeFrom (p : Prime) : List Prime → Bool → List Prime
  | [], doAppend => if doAppend then [p] else []
  | t :: ps, doAppend =>
    -- Already in the set.
    if Included p t then t :: ps
    else if Included t p then p :: mergeFrom p ps false
    else
      let append := if IsOneChangeSame p t then false else doAppend
      let joined := if IsOneChangeSame p t then t.drop (t.val ^^^ p.val) else t
      let joined := if IsOneChange p t then t.drop ((t.val ^^^ p.val) &&& p.set) else joined
      joined :: mergeFrom p ps append

/-- `Merge`. -/
def merge (ps : List Prime) (p : Prime) : List Prime := mergeFrom p ps true

/-- The conjunction of two primes, none when they conflict. -/
def and (l r : Prime) : Option Prime :=
  if (l.val ^^^ r.val) &&& (l.set &&& r.set) = 0#16 then
    some
      { set := l.set ||| r.set
        val := (r.set &&& r.val) ||| ((l.set &&& ~~~r.set) &&& l.val) }
  else none

end Prime

open Prime

/-- The conjunction of two primes is merged, unless they conflict. -/
def mergeAnd (lp : Prime) (res : List Prime) (rp : Prime) : List Prime :=
  match lp.and rp with
  | none => res
  | some p => merge res p

/-- `Build_Primes_And`. -/
def buildPrimesAnd (l r : List Prime) : Outcome (List Prime) :=
  if maxPrimes < l.length * r.length then .error .constraintError
  else .ok (l.foldl (fun res lp => r.foldl (mergeAnd lp) res) [])

/-- `Build_Primes_Or`. -/
def buildPrimesOr (l r : List Prime) : Outcome (List Prime) :=
  if maxPrimes < l.length + r.length then .error .constraintError
  else .ok (r.foldl merge (l.foldl merge []))

/-- `Build_Primes_And` or `Build_Primes_Or`. -/
def joinPrimes (conjunction : Bool) (l r : List Prime) : Outcome (List Prime) :=
  if conjunction then buildPrimesAnd l r else buildPrimesOr l r

/-- The sets of both operands are built and joined, the left one first. -/
def buildOperands (conjunction : Bool) (left : Outcome (List Prime × List BoolNode))
    (right : List BoolNode → Outcome (List Prime × List BoolNode)) :
    Outcome (List Prime × List BoolNode) := do
  let (l, terms) ← left
  let (r, terms) ← right terms
  let res ← joinPrimes conjunction l r
  return (res, terms)

/-- The number of a term, which gets the next one when it has none (`Get_HDL_Index`, `Term_Assoc`). -/
def termIndex (terms : List BoolNode) (n : BoolNode) : Outcome (Nat × List BoolNode) :=
  match terms.idxOf? n with
  | some index => .ok (index, terms)
  | none =>
    if terms.length = maxTerms then .error .programError else .ok (terms.length, terms ++ [n])

/-- The prime of one term. -/
def literalPrime (negate : Bool) (index : Nat) : Prime :=
  { set := term index, val := if negate then 0#16 else term index }

/-- `Build_Primes`. -/
def buildPrimes (terms : List BoolNode) (n : BoolNode) (negate : Bool) :
    Outcome (List Prime × List BoolNode) :=
  match n with
  | .hdlExpr _ | .eos => do
    let (index, terms) ← termIndex terms n
    return ([literalPrime negate index], terms)
  | .falseNode => .ok ([], terms)
  | .trueNode => .ok ([{ set := 0#16, val := 0#16 }], terms)
  | .notBool _ boolean => buildPrimes terms boolean (!negate)
  | .andBool _ left right =>
    -- !(a & b) <-> !a || !b
    buildOperands (!negate) (buildPrimes terms left negate)
      fun terms => buildPrimes terms right negate
  | .orBool _ left right =>
    -- !(a || b) <-> !a && !b
    buildOperands negate (buildPrimes terms left negate)
      fun terms => buildPrimes terms right negate
  | .impBool _ left right =>
    -- a -> b <-> !a || b
    buildOperands negate (buildPrimes terms left (!negate))
      fun terms => buildPrimes terms right negate

/-- The node of a term of a prime. -/
def literalNode (p : Prime) (index : Nat) (n : BoolNode) : BoolNode :=
  if p.val &&& term index = 0#16 then buildBoolNot n else n

/-- The loop of `Build_Node` of a prime, over the terms from a number on. The bits of a prime are bits of
terms, so that the loop ends with them. -/
def buildPrimeFrom (p : Prime) : List BoolNode → Nat → Option BoolNode → Option BoolNode
  | [], _, res => res
  | n :: terms, index, res =>
    if p.set &&& term index = 0#16 then buildPrimeFrom p terms (index + 1) res
    else
      buildPrimeFrom p terms (index + 1) (some (match res with
        | none => literalNode p index n
        | some res => buildBoolAnd res (literalNode p index n)))

/-- `Build_Node` of a prime. -/
def buildPrimeNode (terms : List BoolNode) (p : Prime) : BoolNode :=
  if p.set = 0#16 then .trueNode else (buildPrimeFrom p terms 0 none).getD .trueNode

/-- `Build_Node` of a set of primes. -/
def buildNode (terms : List BoolNode) : List Prime → BoolNode
  | [] => .falseNode
  | p :: ps => ps.foldl (fun res p => buildBoolOr res (buildPrimeNode terms p)) (buildPrimeNode terms p)

/-- `Reduce`. -/
def Tables.reduce (t : Tables) (n : BoolNode) : Outcome (BoolNode × Tables) := do
  let (ps, terms) ← buildPrimes t.terms n false
  return (buildNode terms ps, { t with terms })

end Ghdl.Psl
