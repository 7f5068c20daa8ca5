import Ghdl.Grt.SdfTokens

/-!
# Sequences of SDF tokens

The tokens of a file are those of the rules on its whole content, however it is read, in every run in which no call of
`Get_Token` is misled by the end of the buffer. A comment that is cut behind its two slashes is not skipped.
-/

namespace Ghdl.Sdf

variable {s : Scanner} {v : View} {fuel : Nat} {content rest : List UInt8} {tok : Token} {stream : List (List UInt8)}

theorem lexNumber_suffix {hasDot isNegative : Bool} {scanInt scanExp : Int}
    (lexed : lexNumber hasDot isNegative scanInt scanExp content = some (tok, rest)) : rest <:+ content := by
  induction content generalizing hasDot isNegative scanInt scanExp with
  | nil =>
    rw [lexNumber] at lexed
    have isRest : [] = rest := congrArg Prod.snd (Option.some.inj lexed)
    subst isRest
    exact List.suffix_refl _
  | cons c content ih =>
    have next : ∀ {hasDot isNegative : Bool} {scanInt scanExp : Int},
        lexNumber hasDot isNegative scanInt scanExp content = some (tok, rest) → rest <:+ c :: content :=
      fun lexed => (ih lexed).trans (List.suffix_cons c content)
    rw [lexNumber] at lexed
    split at lexed
    · split at lexed
      · exact next lexed
      · exact absurd lexed (by simp)
    split at lexed
    · split at lexed
      · exact absurd lexed (by simp)
      · exact next lexed
    split at lexed
    · split at lexed
      · exact absurd lexed (by simp)
      · exact next lexed
    split at lexed
    · exact absurd lexed (by simp)
    · have isRest : c :: content = rest := congrArg Prod.snd (Option.some.inj lexed)
      subst isRest
      exact List.suffix_refl _

theorem lexString_suffix (lexed : lexString content = some (tok, rest)) : rest <:+ content := by
  unfold lexString at lexed
  have isSuffix := List.dropWhile_suffix (l := content) isStringChar
  split at lexed
  · exact absurd lexed (by simp)
  · rename_i c after isRest
    split at lexed
    · have isAfter : after = rest := congrArg Prod.snd (Option.some.inj lexed)
      rw [isRest, isAfter] at isSuffix
      exact (List.suffix_cons c rest).trans isSuffix
    · exact absurd lexed (by simp)

theorem lexIdentifier_suffix (lexed : lexIdentifier content = some (tok, rest)) :
    rest = content.dropWhile isIdentChar := by
  unfold lexIdentifier at lexed
  dsimp only at lexed
  split at lexed
  · exact absurd lexed (by simp)
  · exact (congrArg Prod.snd (Option.some.inj lexed)).symm

theorem lexAt_suffix {c : UInt8} (lexed : lexAt (c :: content) = some (tok, rest)) : rest <:+ content := by
  have plain : ∀ {type : SdfTokenType}, some (Token.plain type, content) = some (tok, rest) → rest <:+ content := by
    intro type same
    have isRest : content = rest := congrArg Prod.snd (Option.some.inj same)
    subst isRest
    exact List.suffix_refl _
  rw [lexAt] at lexed
  split at lexed
  · exact absurd lexed (by simp)
  split at lexed
  · exact lexString_suffix lexed
  split at lexed
  · exact plain lexed
  split at lexed
  · exact plain lexed
  split at lexed
  · exact plain lexed
  split at lexed
  · exact plain lexed
  split at lexed
  · exact plain lexed
  split at lexed
  · have isIdent : isIdentChar c = true := decide_eq_true (Or.inl ‹_›)
    rw [lexIdentifier_suffix lexed, List.dropWhile_cons_of_pos isIdent]
    exact List.dropWhile_suffix _
  split at lexed
  · have start : isDigit c = true ∨ c = chr '-' := ‹_›
    rw [lexNumber] at lexed
    by_cases digit : isDigit c = true
    · rw [if_pos digit] at lexed
      split at lexed
      · exact lexNumber_suffix lexed
      · exact absurd lexed (by simp)
    · have isMinus := start.resolve_left digit
      rw [isMinus] at lexed
      exact lexNumber_suffix lexed
  · exact absurd lexed (by simp)

theorem lexToken_suffix (lexed : lexToken content = some (tok, rest)) :
    rest <:+ content ∧ (tok ≠ .plain .tokEof → rest.length < content.length) := by
  unfold lexToken at lexed
  have isSuffix := skipContent_suffix false content
  cases isSkipped : skipContent false content with
  | nil =>
    rw [isSkipped, lexAt] at lexed
    have parts := Prod.mk.inj (Option.some.inj lexed)
    rw [← parts.1, ← parts.2]
    exact ⟨List.nil_suffix, fun notEof => absurd rfl notEof⟩
  | cons c after =>
    rw [isSkipped] at lexed isSuffix
    have inAfter := lexAt_suffix lexed
    have shorter := inAfter.length_le
    have whole := isSuffix.length_le
    rw [List.length_cons] at whole
    exact ⟨(inAfter.trans (List.suffix_cons c after)).trans isSuffix, fun _ => by omega⟩

theorem lexTokens_ends {n : Nat} (enough : content.length < n) : (lexTokens n content).2 ≠ .unfinished := by
  induction n generalizing content with
  | zero => exact absurd enough (Nat.not_lt_zero _)
  | succ n ih =>
    rw [lexTokens]
    split
    · exact Ending.noConfusion
    · exact Ending.noConfusion
    · rename_i tok rest notEof lexed
      have shorter := (lexToken_suffix lexed).2 notEof
      exact ih (by omega)

/-- The scanners between the calls of `Get_Token`. -/
inductive Reached (fuel : Nat) (stream : List (List UInt8)) : Scanner → Prop
  | opened : Reached fuel stream (openSdf stream)
  | token {s s' : Scanner} {type : SdfTokenType} : Reached fuel stream s → getToken fuel s = .ok (type, s') →
      Reached fuel stream s'

theorem openSdf_shows (stream : List (List UInt8)) : Shows (openSdf stream) ⟨1, [], stream⟩ where
  pos := rfl
  holds := ⟨Nat.le_refl 1, rfl, (by decide : 1 ≤ bufSize), fun i c isChar => absurd isChar (by simp), rfl⟩
  stream := rfl

theorem observe_eq_eof {type : SdfTokenType} : observe type s = .plain .tokEof ↔ type = .tokEof := by
  cases type <;> simp [observe]

theorem tokens_eof {n : Nat} {s' : Scanner} (run : getToken fuel s = .ok (.tokEof, s')) : tokens fuel (n + 1) s = ([], .eof) := by
  rw [tokens, run]

theorem tokens_cons {n : Nat} {s' : Scanner} {type : SdfTokenType} (run : getToken fuel s = .ok (type, s'))
    (notEof : type ≠ .tokEof) :
    tokens fuel (n + 1) s = (observe type s' :: (tokens fuel n s').1, (tokens fuel n s').2) := by
  rw [tokens, run]
  cases type with
  | tokEof => exact absurd rfl notEof
  | _ => rfl

theorem lexTokens_cons {n : Nat} (lexed : lexToken content = some (tok, rest)) (notEof : tok ≠ .plain .tokEof) :
    lexTokens (n + 1) content = (tok :: (lexTokens n rest).1, (lexTokens n rest).2) := by
  rw [lexTokens, lexed]
  split
  · rename_i isNone
    exact absurd isNone (by simp)
  · rename_i isEof
    exact absurd (Prod.mk.inj (Option.some.inj isEof)).1 notEof
  · rename_i same
    have parts := Prod.mk.inj (Option.some.inj same)
    rw [parts.1, parts.2]

theorem tokens_eq_from (clean : ∀ s, Reached fuel stream s → Clean .blanks s.view) {n : Nat} (reached : Reached fuel stream s)
    (shows : Shows s v) (blocks : Blocks v.stream) (short : ShortLines v.content) (enough : 2 * v.content.length < fuel) :
    tokens fuel n s = lexTokens n v.content := by
  induction n generalizing s v with
  | zero => rfl
  | succ n ih =>
    have isClean := clean s reached
    rw [shows.view_eq] at isClean
    have yields := getToken_yields isClean shows blocks short enough
    cases lexed : lexToken v.content with
    | none =>
      rw [lexed] at yields
      obtain ⟨failure, run, isError⟩ := yields
      rw [tokens, run, lexTokens, lexed, ← isError]
    | some result =>
      obtain ⟨tok, rest⟩ := result
      rw [lexed] at yields
      obtain ⟨type, s', v', run, observed, shows', blocks', isRest⟩ := yields
      obtain ⟨isSuffix, -⟩ := lexToken_suffix lexed
      by_cases isEof : type = .tokEof
      · have isEofToken : tok = .plain .tokEof := observed.symm.trans (observe_eq_eof.mpr isEof)
        rw [isEof] at run
        rw [tokens_eof run, lexTokens, lexed, isEofToken]
      have notEof : tok ≠ .plain .tokEof := fun isEofToken => isEof (observe_eq_eof.mp (observed.trans isEofToken))
      have shorter := isSuffix.length_le
      rw [← isRest] at isSuffix shorter
      rw [tokens_cons run isEof, lexTokens_cons lexed notEof, observed,
        ih (reached.token run) shows' blocks' (short.suffix isSuffix) (by omega), isRest]

/-- The tokens of a file do not depend on the blocks in which it is read, if no call of `Get_Token` in the run is misled by
the end of the buffer. -/
theorem tokens_eq_lexTokens (stream : List (List UInt8)) (blocks : Blocks stream) (short : ShortLines stream.flatten)
    (fuel : Nat) (enough : 2 * stream.flatten.length < fuel) (clean : ∀ s, Reached fuel stream s → Clean .blanks s.view)
    (n : Nat) : tokens fuel n (openSdf stream) = lexTokens n stream.flatten ∧
      (stream.flatten.length < n → (tokens fuel n (openSdf stream)).2 ≠ .unfinished) := by
  have same := tokens_eq_from clean (n := n) .opened (openSdf_shows stream) blocks short enough
  refine ⟨same, fun long => ?_⟩
  rw [same]
  exact lexTokens_ends long

/-- Characters that start no comment, no identifier and no string. -/
def isSimple (c : UInt8) : Bool := c ≠ chr '/' ∧ c ≠ chr '"' ∧ isLetter c = false

theorem View.suffix_advance (v : View) (n : Nat) : (v.advance n).content <:+ v.content := by
  refine ⟨v.win.take n, ?_⟩
  unfold content advance
  rw [← List.append_assoc, List.take_append_drop]

theorem View.win_atLeast {c : UInt8} {win : List UInt8} (n : Nat) (isWin : v.win = c :: win) :
    ∃ more, (v.atLeast n).win = c :: more := by
  unfold atLeast
  split
  · refine ⟨win ++ v.stream.headD [], ?_⟩
    show v.win ++ _ = _
    rw [isWin]
    rfl
  · exact ⟨win, isWin⟩

theorem clean_separators_of_simple (simple : ∀ c ∈ v.content, isSimple c = true) : Clean .separators v := by
  induction count : v.content.length using Nat.strong_induction_on generalizing v with
  | _ n ih =>
    have same := v.content_atLeast 1
    have after : ∀ {c : UInt8} {win : List UInt8} {k : Nat}, (v.atLeast 1).win = c :: win → 0 < k →
        Clean .separators ((v.atLeast 1).advance k) := by
      intro c win k isWin positive
      have isSuffix := (v.atLeast 1).suffix_advance k
      have length : ((v.atLeast 1).advance k).content.length < (v.atLeast 1).content.length := by
        show ((v.atLeast 1).win.drop k ++ (v.atLeast 1).stream.flatten).length <
          ((v.atLeast 1).win ++ (v.atLeast 1).stream.flatten).length
        rw [isWin, List.length_append, List.length_append, List.length_drop, List.length_cons]
        omega
      rw [same] at isSuffix length
      exact ih _ (by omega) (fun d inside => simple d (isSuffix.subset inside)) rfl
    cases isWin : (v.atLeast 1).win with
    | nil => exact .eof isWin
    | cons c win =>
      by_cases blank : isBlank c = true
      · rcases of_decide_eq_true blank with isSpace | isHt | isLf | isCr
        · exact .separator isWin (Or.inl isSpace) (after isWin (by omega))
        · exact .separator isWin (Or.inr isHt) (after isWin (by omega))
        · refine .line isWin (Or.inl ⟨isLf, rfl⟩) (after isWin ?_)
          split <;> omega
        · refine .line isWin (Or.inr ⟨isCr, rfl⟩) (after isWin ?_)
          split <;> omega
      have inside : c ∈ v.content := by
        rw [← same, View.content_cons isWin]
        exact List.mem_cons_self
      obtain ⟨notSlash, notQuote, notLetter⟩ := of_decide_eq_true (simple c inside)
      refine .token isWin (by simpa using blank) (fun isComment => notSlash isComment.1) ?_
      obtain ⟨more, isMore⟩ := View.win_atLeast 4 isWin
      unfold Uncut
      rw [isMore]
      dsimp only
      rw [if_neg notQuote, if_neg (by rw [notLetter]; decide)]
      trivial

theorem clean_of_simple (simple : ∀ c ∈ v.content, isSimple c = true) : Clean .blanks v := by
  induction count : v.win.length generalizing v with
  | zero =>
    refine .blanksEnd ?_ (clean_separators_of_simple simple)
    rw [List.eq_nil_of_length_eq_zero count]
    simp
  | succ n ih =>
    cases isWin : v.win with
    | nil =>
      rw [isWin] at count
      exact absurd count (by simp)
    | cons c win =>
      by_cases isSpace : c = chr ' '
      · rw [isSpace] at isWin
        refine .blank isWin (ih (fun d inside => simple d ((v.suffix_advance 1).subset inside)) ?_)
        show (v.win.drop 1).length = n
        rw [List.length_drop, count, Nat.add_sub_cancel]
      · refine .blanksEnd ?_ (clean_separators_of_simple simple)
        rw [isWin]
        exact fun same => isSpace (Option.some.inj same)

/-- A file without comments, identifiers and strings never misleads the scanner. -/
theorem clean_of_reached (blocks : Blocks stream) (short : ShortLines stream.flatten) (enough : 2 * stream.flatten.length < fuel)
    (simple : ∀ c ∈ stream.flatten, isSimple c = true) (reached : Reached fuel stream s) : Clean .blanks s.view := by
  have invariant : ∃ v, Shows s v ∧ Blocks v.stream ∧ v.content <:+ stream.flatten := by
    induction reached with
    | opened => exact ⟨⟨1, [], stream⟩, openSdf_shows stream, blocks, List.suffix_refl _⟩
    | token _ run ih =>
      obtain ⟨v, shows, blocks', isSuffix⟩ := ih
      have isClean := clean_of_simple fun c inside => simple c (isSuffix.subset inside)
      have shorter := isSuffix.length_le
      have yields := getToken_yields isClean shows blocks' (short.suffix isSuffix) (show _ < fuel by omega)
      rw [run] at yields
      cases lexed : lexToken v.content with
      | none =>
        rw [lexed] at yields
        obtain ⟨failure, isError, -⟩ := yields
        exact absurd isError (by simp)
      | some result =>
        obtain ⟨tok, rest⟩ := result
        rw [lexed] at yields
        obtain ⟨type, s', v', isRun, -, shows', blocks'', isRest⟩ := yields
        have isScanner := (Prod.mk.inj (Except.ok.inj isRun)).2
        rw [isScanner]
        refine ⟨v', shows', blocks'', ?_⟩
        rw [isRest]
        exact (lexToken_suffix lexed).1.trans isSuffix
  obtain ⟨v, shows, -, isSuffix⟩ := invariant
  rw [shows.view_eq]
  exact clean_of_simple fun c inside => simple c (isSuffix.subset inside)

theorem shortLines_of_length (small : content.length < 1024) : ShortLines content := fun _ isInfix _ =>
  Nat.lt_of_le_of_lt isInfix.length_le small

/-- `(1:` and `2.5)` are read as one number after the other. -/
theorem numbers_read : tokens 20 9 (openSdf [[chr '(', chr '1', chr ':'], [chr '2', chr '.', chr '5', chr ')']]) =
      lexTokens 9 [chr '(', chr '1', chr ':', chr '2', chr '.', chr '5', chr ')'] := by
  have blocks : Blocks [[chr '(', chr '1', chr ':'], [chr '2', chr '.', chr '5', chr ')']] := by
    unfold Blocks
    decide
  have short : ShortLines [chr '(', chr '1', chr ':', chr '2', chr '.', chr '5', chr ')'] := shortLines_of_length (by decide)
  exact (tokens_eq_lexTokens _ blocks short 20 (by decide)
    (fun s reached => clean_of_reached blocks short (by decide +kernel) (by decide +kernel) reached) 9).1

/-- The text of a comment whose two slashes are the end of a block is not skipped. -/
theorem comment_not_skipped : Blocks [[chr '/', chr '/'], [chr ' ', chr 'a', lf, chr ')']] ∧
      ShortLines [chr '/', chr '/', chr ' ', chr 'a', lf, chr ')'] ∧
      tokens 20 9 (openSdf [[chr '/', chr '/'], [chr ' ', chr 'a', lf, chr ')']]) ≠
        lexTokens 9 [chr '/', chr '/', chr ' ', chr 'a', lf, chr ')'] := by
  refine ⟨by unfold Blocks; decide, shortLines_of_length (by decide), ?_⟩
  decide +kernel

end Ghdl.Sdf
