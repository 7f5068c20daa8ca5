import Mathlib.Data.List.Basic

/-!
# Scopes and visibility

`sem_scopes` maps each identifier to a chain of interpretations. The cells of all chains are on one stack: a region
adds cells on the top, and takes them off when it is closed. A declaration that hides another one of an outer region
unlinks its cell, and saves it in a table from which it is linked again at the end of the region.
-/

namespace Ghdl.SemScopes

/-- The kinds of declarations that are told apart. -/
inductive Kind
  | enumerationLiteral
  | functionDeclaration
  | procedureDeclaration
  | interfaceFunctionDeclaration
  | interfaceProcedureDeclaration
  | nonObjectAliasDeclaration
  | libraryDeclaration
  | other
deriving DecidableEq, Repr

/-- The kinds of nodes with a `Subprogram_Hash`. -/
def Kind.hasSubprogramHash : Kind → Bool
  | .enumerationLiteral | .functionDeclaration | .procedureDeclaration | .interfaceFunctionDeclaration
  | .interfaceProcedureDeclaration => true
  | _ => false

/-- The fields of the declarations. An alias names an entity that is not an alias itself. -/
structure Nodes (Iir : Type) where
  kind : Iir → Kind
  /-- `Get_Named_Entity (Get_Name (D))`, of an alias. -/
  namedEntity : Iir → Iir
  implicitAliasFlag : Iir → Bool
  /-- `Get_Implicit_Definition (D) in Iir_Predefined_Implicit`, of a subprogram. -/
  implicitDefinition : Iir → Bool
  subprogramHash : Iir → Int
  /-- `Get_Base_Type (Get_Return_Type (D))`, of a function. -/
  returnType : Iir → Iir
  /-- `Get_Type`, of an enumeration literal. -/
  type : Iir → Iir
  /-- The base types of the interfaces of a subprogram. -/
  interfaceTypes : Iir → List Iir
  parent : Iir → Iir
  named : ∀ d, kind (namedEntity d) ≠ .nonObjectAliasDeclaration

/-- `Flags.Vhdl_Std >= Vhdl_08` and `Flags.Flag_Explicit`. -/
structure Flags where
  vhdl08 : Bool
  explicit : Bool
deriving DecidableEq, Repr

/-- Where the analyser stops: on an assertion, or with an internal error. -/
inductive Failure
  | assertion
  | internalError
deriving DecidableEq, Repr

variable {Iir Id : Type} [DecidableEq Iir] [DecidableEq Id]

namespace Nodes

variable (nodes : Nodes Iir)

/-- `Strip_Non_Object_Alias`. -/
def strip (d : Iir) : Iir := if nodes.kind d = .nonObjectAliasDeclaration then nodes.namedEntity d else d

/-- `Is_Overloadable`. -/
def isOverloadable (d : Iir) : Bool :=
  match nodes.kind d with
  | .nonObjectAliasDeclaration => (nodes.kind (nodes.namedEntity d)).hasSubprogramHash
  | kind => kind.hasSubprogramHash

/-- `Is_Implicit_Subprogram`. -/
def isImplicitSubprogram (d : Iir) : Bool :=
  (nodes.kind d = .functionDeclaration || nodes.kind d = .procedureDeclaration) && nodes.implicitDefinition d

/-- `Is_Same_Profile`. -/
def isSameProfile (l r : Iir) : Bool :=
  let l1 := nodes.strip l
  let r1 := nodes.strip r
  match nodes.kind l1, nodes.kind r1 with
  | .functionDeclaration, .functionDeclaration =>
    nodes.returnType l1 = nodes.returnType r1 && nodes.interfaceTypes l1 = nodes.interfaceTypes r1
  | .procedureDeclaration, .procedureDeclaration => nodes.interfaceTypes l1 = nodes.interfaceTypes r1
  | .enumerationLiteral, .enumerationLiteral => nodes.type l1 = nodes.type r1
  | .enumerationLiteral, .functionDeclaration =>
    nodes.interfaceTypes r1 = [] && nodes.returnType r1 = nodes.type l1
  | .functionDeclaration, .enumerationLiteral =>
    nodes.interfaceTypes l1 = [] && nodes.returnType l1 = nodes.type r1
  | _, _ => false

/-- `Is_Implicit_Declaration`. -/
def isImplicitDeclaration (d : Iir) : Except Failure Bool :=
  match nodes.kind d with
  | .nonObjectAliasDeclaration => .ok (nodes.implicitAliasFlag d)
  | .enumerationLiteral => .ok false
  | .procedureDeclaration | .functionDeclaration => .ok (nodes.isImplicitSubprogram d)
  | _ => .error .internalError

/-- `Is_Implicit_Alias`. -/
def isImplicitAlias (d : Iir) : Bool :=
  nodes.kind d = .nonObjectAliasDeclaration && nodes.implicitAliasFlag d &&
    nodes.isImplicitSubprogram (nodes.namedEntity d)

/-- Both declarations have the same hash and the same profile. -/
def isHomograph (decl current : Iir) : Bool :=
  nodes.subprogramHash (nodes.strip decl) = nodes.subprogramHash (nodes.strip current) &&
    nodes.isSameProfile decl current

end Nodes

/-- An interpretation. Without a declaration it is the mark of a conflict. -/
structure Cell (Iir Id : Type) where
  decl : Option Iir
  isPotential : Bool
  prevHidden : Bool
  prev : Nat
  prevInRegion : Option Id
deriving DecidableEq, Repr

/-- The kinds of scopes. -/
inductive ScopeKind
  | start
  | region
deriving DecidableEq, Repr

/-- What is saved of the outer scope. -/
structure ScopeCell (Id : Type) where
  kind : ScopeKind
  savedLastInRegion : Option Id
  savedRegionStart : Nat
  savedFirstHideIndex : Nat
  savedFirstInterpretation : Nat
deriving DecidableEq, Repr

/-- The tables, which all start at 1, and the names. The last scope comes first. -/
structure Scopes (Iir Id : Type) where
  interpretations : List (Cell Iir Id)
  nameInfo : Id → Nat
  lastInRegion : Option Id
  currentRegionStart : Nat
  firstInterpretation : Nat
  hiddenDecls : List Nat
  firstHideIndex : Nat
  scopes : List (ScopeCell Id)

/-- `No_Name_Interpretation`. -/
def noInterpretation : Nat := 0

/-- The cell of an interpretation, in a table. -/
def cellAt (cells : List (Cell Iir Id)) : Nat → Cell Iir Id
  | 0 => ⟨none, false, true, noInterpretation, none⟩
  | n + 1 => cells.getD n ⟨none, false, true, noInterpretation, none⟩

/-- Change the cell of an interpretation. -/
def modifyAt (cells : List (Cell Iir Id)) (n : Nat) (f : Cell Iir Id → Cell Iir Id) : List (Cell Iir Id) :=
  match n with
  | 0 => cells
  | n + 1 => cells.modify n f

namespace Scopes

/-- No identifier has an interpretation. -/
def empty : Scopes Iir Id := ⟨[], fun _ => noInterpretation, none, 1, 1, [], 1, []⟩

variable (s : Scopes Iir Id)

/-- `Interpretations.Last`. -/
def last : Nat := s.interpretations.length

def cell (n : Nat) : Cell Iir Id := cellAt s.interpretations n

/-- `Valid_Interpretation`. -/
def Valid (n : Nat) : Prop := s.firstInterpretation ≤ n

instance (n : Nat) : Decidable (s.Valid n) := inferInstanceAs (Decidable (_ ≤ _))

/-- `Is_Conflict_Declaration`. -/
def isConflict (n : Nat) : Bool := (s.cell n).decl.isNone

/-- `Get_Interpretation_From_Raw`. -/
def getInterpretationFromRaw (n : Nat) : Nat := if s.Valid n ∧ ¬ s.isConflict n then n else noInterpretation

/-- `Get_Interpretation`. -/
def getInterpretation (id : Id) : Nat := s.getInterpretationFromRaw (s.nameInfo id)

/-- `Get_Next_Interpretation`. -/
def getNextInterpretation (n : Nat) : Nat :=
  if (s.cell n).prevHidden ∨ ¬ s.Valid (s.cell n).prev then noInterpretation else (s.cell n).prev

/-- The interpretations from one on, at most so many. -/
def interpretationsFrom : Nat → Nat → List Nat
  | 0, _ => []
  | fuel + 1, n => if n = noInterpretation then [] else n :: interpretationsFrom fuel (s.getNextInterpretation n)

/-- The visible interpretations of an identifier. -/
def visible (id : Id) : List Nat := s.interpretationsFrom s.last (s.getInterpretation id)

/-- The visible declarations of an identifier. -/
def declarations (id : Id) : List (Option Iir) := (s.visible id).map fun n => (s.cell n).decl

/-- `Is_In_Current_Declarative_Region`. -/
def InCurrentRegion (n : Nat) : Prop := s.currentRegionStart ≤ n

instance (n : Nat) : Decidable (s.InCurrentRegion n) := inferInstanceAs (Decidable (_ ≤ _))

end Scopes

/-- The two errors of `Add_Name`. -/
inductive Message (Iir : Type)
  | redeclaration (current : Iir)
  | alreadyUsed (current : Iir)
deriving DecidableEq, Repr

/-- What `Add_Name` does at the end of each of its branches. -/
inductive Action (Iir : Type)
  | discard
  | report (message : Message Iir)
  | add (hidPrev : Bool) (decl : Option Iir)
  | replace (homograph : Nat)
  | addAndHide (homograph prevHomograph : Nat)
deriving DecidableEq, Repr

section AddName

variable (nodes : Nodes Iir) (flags : Flags) (s : Scopes Iir Id)

/-- Find an homograph of DECL: its interpretation, the one just before it in the chain, and its declaration. -/
def findHomograph (decl : Iir) : Nat → List Nat → Except Failure (Option (Nat × Nat × Iir))
  | _, [] => .ok none
  | prevHomograph, homograph :: rest =>
    match (s.cell homograph).decl with
    | none => .error .assertion
    | some currentDecl =>
      if ¬ nodes.isOverloadable currentDecl then .error .assertion
      else if nodes.isHomograph decl currentDecl then .ok (some (homograph, prevHomograph, currentDecl))
      else findHomograph decl homograph rest

/-- The rule of GHDL for homographs in the same declarative region, before VHDL 2008. -/
def sameParentAction (decl currentDecl : Iir) (homograph : Nat) : Action Iir :=
  if ¬ flags.vhdl08 ∧ ¬ flags.explicit ∧ nodes.parent decl = nodes.parent currentDecl then
    let implicitCurrentDecl := nodes.isImplicitSubprogram currentDecl
    let implicitDecl := nodes.isImplicitSubprogram decl
    if implicitCurrentDecl ∧ ¬ implicitDecl then .replace homograph
    else if ¬ implicitCurrentDecl ∧ implicitDecl then .discard
    else .add false (some decl)
  else .add false (some decl)

/-- There is an homograph, and DECL would be made potentially visible. -/
def potentialAction (decl currentDecl : Iir) (homograph prevHomograph : Nat) : Except Failure (Action Iir) :=
  if s.InCurrentRegion homograph ∧ ¬ (s.cell homograph).isPotential then return .discard
  else if (flags.explicit ∨ flags.vhdl08) ∧ (s.cell homograph).isPotential then do
    let implicitCurrentDecl ← nodes.isImplicitDeclaration currentDecl
    let implicitDecl ← nodes.isImplicitDeclaration decl
    if implicitCurrentDecl ∧ ¬ implicitDecl then
      if s.InCurrentRegion homograph then return .replace homograph
      else return .addAndHide homograph prevHomograph
    else if ¬ implicitCurrentDecl ∧ implicitDecl then return .discard
    else if nodes.strip decl = nodes.strip currentDecl then return .discard
    else return sameParentAction nodes flags decl currentDecl homograph
  else return sameParentAction nodes flags decl currentDecl homograph

/-- There is an homograph, and DECL would be made directly visible. -/
def directAction (decl currentDecl : Iir) (homograph prevHomograph : Nat) : Action Iir :=
  if ¬ (s.cell homograph).isPotential ∧ s.InCurrentRegion homograph then
    if flags.vhdl08 then
      let isCurrentDeclImplicit := nodes.isImplicitSubprogram currentDecl || nodes.isImplicitAlias currentDecl
      let isDeclImplicit := nodes.isImplicitSubprogram decl || nodes.isImplicitAlias decl
      if nodes.strip decl = nodes.strip currentDecl then
        if isCurrentDeclImplicit ∧ ¬ isDeclImplicit then .replace homograph else .discard
      else if isDeclImplicit ∧ ¬ isCurrentDeclImplicit then .discard
      else if isDeclImplicit = isCurrentDeclImplicit then .report (.redeclaration currentDecl)
      else .addAndHide homograph prevHomograph
    else
      let isDeclImplicit := nodes.isImplicitSubprogram decl
      let isCurrentDeclImplicit := nodes.isImplicitSubprogram currentDecl
      if isDeclImplicit = isCurrentDeclImplicit then .report (.redeclaration currentDecl)
      else .addAndHide homograph prevHomograph
  else .addAndHide homograph prevHomograph

/-- DECL and the current declaration are overloadable. -/
def overloadedAction (decl : Iir) (ident : Id) (potentially : Bool) : Except Failure (Action Iir) := do
  match ← findHomograph nodes s decl noInterpretation (s.visible ident) with
  | none => return .add false (some decl)
  | some (homograph, prevHomograph, currentDecl) =>
    if potentially then potentialAction nodes flags s decl currentDecl homograph prevHomograph
    else return directAction nodes flags s decl currentDecl homograph prevHomograph

/-- The current interpretation and the new one are not both overloadable: they are homographs. -/
def homographAction (decl currentDecl : Iir) (currentInter : Nat) (potentially : Bool) :
    Except Failure (Action Iir) :=
  if s.InCurrentRegion currentInter then
    if (s.cell currentInter).isPotential then
      if potentially then
        if decl = currentDecl then .error .internalError
        else if flags.vhdl08 ∧ nodes.strip decl = nodes.strip currentDecl then return .discard
        else return .add true none
      else return .add true (some decl)
    else if potentially then return .discard
    else if nodes.kind decl = .libraryDeclaration ∧ nodes.kind currentDecl = .libraryDeclaration then
      return .discard
    else return .report (.alreadyUsed currentDecl)
  else return .add true (some decl)

/-- What `Add_Name` does with DECL. -/
def addNameAction (decl : Iir) (ident : Id) (potentially : Bool) : Except Failure (Action Iir) :=
  let currentInter := s.getInterpretation ident
  if ¬ s.Valid currentInter then return .add true (some decl)
  else
    match (s.cell currentInter).decl with
    | none => if potentially then return .discard else return .add true (some decl)
    | some currentDecl =>
      -- Do not re-add a potential declaration.
      if potentially ∧ some decl ∈ s.declarations ident then return .discard
      else if nodes.isOverloadable currentDecl ∧ nodes.isOverloadable decl then
        overloadedAction nodes flags s decl ident potentially
      else homographAction nodes flags s decl currentDecl currentInter potentially

/-- `Add_New_Interpretation`. -/
def addNewInterpretation (ident : Id) (potentially hidPrev : Bool) (d : Option Iir) : Scopes Iir Id :=
  { s with
    interpretations := s.interpretations ++ [⟨d, potentially, hidPrev, s.nameInfo ident, s.lastInRegion⟩]
    nameInfo := Function.update s.nameInfo ident (s.last + 1)
    lastInRegion := some ident }

/-- `Hide_Homograph`. -/
def hideHomograph (homograph prevHomograph : Nat) : Except Failure (Scopes Iir Id) :=
  let prevHomograph := if prevHomograph = noInterpretation then s.last else prevHomograph
  if (s.cell prevHomograph).prev = homograph then
    let prev := (s.cell homograph).prev
    let cells := modifyAt s.interpretations homograph fun c => { c with prev := prevHomograph }
    .ok { s with
      hiddenDecls := s.hiddenDecls ++ [homograph]
      interpretations := modifyAt cells prevHomograph fun c => { c with prev := prev } }
  else .error .assertion

/-- `Replace_Homograph`. -/
def replaceHomograph (homograph : Nat) (decl : Iir) : Scopes Iir Id :=
  { s with interpretations := modifyAt s.interpretations homograph fun c => { c with decl := some decl } }

/-- Do what was found for DECL. -/
def perform (decl : Iir) (ident : Id) (potentially : Bool) : Action Iir → Except Failure (Scopes Iir Id)
  | .discard | .report _ => .ok s
  | .add hidPrev d => .ok (addNewInterpretation s ident potentially hidPrev d)
  | .replace homograph => .ok (replaceHomograph s homograph decl)
  | .addAndHide homograph prevHomograph =>
    hideHomograph (addNewInterpretation s ident potentially false (some decl)) homograph prevHomograph

/-- `Add_Name`. -/
def addName (decl : Iir) (ident : Id) (potentially : Bool) : Except Failure (Scopes Iir Id) := do
  perform s decl ident potentially (← addNameAction nodes flags s decl ident potentially)

end AddName

section Regions

variable (s : Scopes Iir Id)

/-- `Push_Interpretations`. -/
def pushInterpretations : Scopes Iir Id :=
  { s with
    scopes := ⟨.start, s.lastInRegion, s.currentRegionStart, s.firstHideIndex, s.firstInterpretation⟩ :: s.scopes
    lastInRegion := none
    currentRegionStart := s.last + 1
    firstHideIndex := s.hiddenDecls.length + 1
    firstInterpretation := s.last + 1 }

/-- `Pop_Interpretations`. -/
def popInterpretations : Except Failure (Scopes Iir Id) :=
  match s.scopes with
  | [] => .error .assertion
  | c :: scopes =>
    if c.kind = .start ∧ s.lastInRegion = none ∧ s.currentRegionStart = s.last + 1 ∧
        s.firstHideIndex = s.hiddenDecls.length + 1 ∧ s.firstInterpretation = s.last + 1 then
      .ok { s with
        lastInRegion := c.savedLastInRegion
        currentRegionStart := c.savedRegionStart
        firstHideIndex := c.savedFirstHideIndex
        firstInterpretation := c.savedFirstInterpretation
        scopes }
    else .error .assertion

/-- `Open_Declarative_Region`. -/
def openDeclarativeRegion : Scopes Iir Id :=
  { s with
    scopes := ⟨.region, s.lastInRegion, s.currentRegionStart, s.firstHideIndex, noInterpretation⟩ :: s.scopes
    lastInRegion := none
    currentRegionStart := s.last + 1
    firstHideIndex := s.hiddenDecls.length + 1 }

/-- Link a hidden declaration again. -/
def restoreHidden (cells : List (Cell Iir Id)) (inter : Nat) : List (Cell Iir Id) :=
  let prevInter := (cellAt cells inter).prev
  let nextInter := (cellAt cells prevInter).prev
  let cells := modifyAt cells inter fun c => { c with prev := nextInter }
  modifyAt cells prevInter fun c => { c with prev := inter }

/-- Remove the interpretations of a region, from the one of ID on. -/
def removeNames (cells : List (Cell Iir Id)) (start : Nat) : Nat → (Id → Nat) → Id → Except Failure (Id → Nat)
  | 0, _, _ => .error .assertion
  | fuel + 1, nameInfo, id =>
    let inter := nameInfo id
    if inter < start then .error .assertion
    else
      let nameInfo := Function.update nameInfo id (cellAt cells inter).prev
      match (cellAt cells inter).prevInRegion with
      | none => if inter = start then .ok nameInfo else .error .assertion
      | some id => removeNames cells start fuel nameInfo id

/-- `Close_Declarative_Region`. -/
def closeDeclarativeRegion : Except Failure (Scopes Iir Id) :=
  match s.scopes with
  | [] => .error .assertion
  | c :: scopes =>
    if c.kind = .region then do
      let hidden := s.hiddenDecls.drop (s.firstHideIndex - 1)
      let cells := hidden.reverse.foldl restoreHidden s.interpretations
      let (cells, nameInfo) ←
        match s.lastInRegion with
        | none => .ok (cells, s.nameInfo)
        | some id => do
          let nameInfo ← removeNames cells s.currentRegionStart (cells.length + 1) s.nameInfo id
          pure (cells.take (s.currentRegionStart - 1), nameInfo)
      return { s with
        interpretations := cells
        nameInfo
        hiddenDecls := s.hiddenDecls.take (s.firstHideIndex - 1)
        lastInRegion := c.savedLastInRegion
        currentRegionStart := c.savedRegionStart
        firstHideIndex := c.savedFirstHideIndex
        scopes }
    else .error .assertion

end Regions

/-- The operations that the analyser calls. -/
inductive Operation (Iir Id : Type)
  | addName (decl : Iir) (ident : Id) (potentially : Bool)
  | openRegion
  | closeRegion
  | push
  | pop
deriving DecidableEq, Repr

/-- Call an operation. -/
def execute (nodes : Nodes Iir) (flags : Flags) (s : Scopes Iir Id) : Operation Iir Id → Except Failure (Scopes Iir Id)
  | .addName decl ident potentially => addName nodes flags s decl ident potentially
  | .openRegion => .ok (openDeclarativeRegion s)
  | .closeRegion => closeDeclarativeRegion s
  | .push => .ok (pushInterpretations s)
  | .pop => popInterpretations s

end Ghdl.SemScopes
