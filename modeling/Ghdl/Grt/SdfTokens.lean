import Ghdl.Grt.SdfBuffer

/-!
# Tokens do not depend on the blocks

Where no step is misled by the end of the buffer, the tokens of the scanner are those of the rules on the whole content,
however the content is cut into blocks. Each loop follows the rules from one view to the next.
-/

namespace Ghdl.Sdf

variable {l win : List UInt8} {c d : UInt8} {s : Scanner} {v : View} {fuel : Nat}

/-- The scanner goes on with a view of content that follows the same rules. -/
structure Skips (x : Except Failure Scanner) (inComment : Bool) (v v' : View) (s' : Scanner) : Prop where
  run : x = .ok s'
  shows : Shows s' v'
  blocks : Blocks v'.stream
  content : skipContent inComment v.content = skipContent false v'.content
  length : v'.content.length ≤ v.content.length

theorem View.content_cons (isWin : v.win = c :: win) : v.content = c :: (v.advance 1).content :=
  View.content_advance (l := [c]) isWin

theorem View.length_next (isWin : v.win = c :: win) : v.content.length = (v.advance 1).content.length + 1 := by
  rw [View.content_cons isWin, List.length_cons]

theorem Shows.next (shows : Shows s v) (isWin : v.win = c :: win) : Shows { s with pos := s.pos + 1 } (v.advance 1) :=
  shows.advance (l := [c]) isWin

theorem skipContent_blank (blank : isBlank c = true) (rest : List UInt8) : skipContent false (c :: rest) = skipContent false rest := by
  rw [skipContent, if_pos blank]

theorem skipBlanks_eq (clean : Clean .blanks v) (shows : Shows s v) (blocks : Blocks v.stream)
    (enough : v.content.length < fuel) : ∃ v' s', Skips (skipBlanks fuel s) false v v' s' ∧ Clean .separators v' := by
  induction fuel generalizing s v with
  | zero => exact absurd enough (Nat.not_lt_zero _)
  | succ fuel ih =>
    cases clean with
    | @blank _ rest isWin rest' =>
      have content := View.content_cons isWin
      have shorter := View.length_next isWin
      obtain ⟨v', s', skips, clean'⟩ := ih rest' (shows.next isWin) blocks (by omega)
      refine ⟨v', s', ⟨?_, skips.shows, skips.blocks, ?_, by have := skips.length; omega⟩, clean'⟩
      · unfold skipBlanks
        rw [shows.bufAt_cons isWin]
        exact skips.run
      · rw [content, skipContent_blank rfl, skips.content]
    | blanksEnd notBlank clean' =>
      refine ⟨v, s, ⟨?_, shows, blocks, rfl, Nat.le_refl _⟩, clean'⟩
      unfold skipBlanks
      cases isWin : v.win with
      | nil =>
        rw [shows.bufAt_nil isWin]
        rfl
      | cons c rest =>
        rw [isWin] at notBlank
        rw [shows.bufAt_cons isWin]
        exact if_neg fun isBlank => notBlank (congrArg some isBlank)

theorem skipComment_eq (clean : Clean .comment v) (shows : Shows s v) (blocks : Blocks v.stream)
    (enough : v.content.length < fuel) : ∃ v' s', Skips (skipComment fuel s) true v v' s' ∧ Clean .separators v' := by
  induction fuel generalizing s v with
  | zero => exact absurd enough (Nat.not_lt_zero _)
  | succ fuel ih =>
    cases clean with
    | commentEnd isEnd clean' =>
      refine ⟨v, s, ⟨?_, shows, blocks, ?_, Nat.le_refl _⟩, clean'⟩
      · unfold skipComment
        cases isWin : v.win with
        | nil =>
          rw [shows.bufAt_nil isWin]
          rfl
        | cons c rest =>
          rw [shows.bufAt_cons isWin]
          exact if_pos (isEnd c (by rw [View.content_cons isWin]; rfl))
      · cases isContent : v.content with
        | nil => rfl
        | cons c rest =>
          rcases isEnd c (by rw [isContent]; rfl) with rfl | rfl | rfl
          all_goals rfl
    | @commentChar _ c rest isWin notEnd clean' =>
      have content := View.content_cons isWin
      have shorter := View.length_next isWin
      obtain ⟨s₁, refilled, shows₁⟩ := refillBelow_eq (n := 0) (shows.next isWin) (Nat.zero_le _) blocks
      have same := View.content_atLeast (v.advance 1) 0
      obtain ⟨v', s', skips, clean''⟩ := ih clean' shows₁ (View.stream_atLeast _ 0 blocks) (by rw [same]; omega)
      refine ⟨v', s', ⟨?_, skips.shows, skips.blocks, ?_, by have := skips.length; rw [same] at this; omega⟩, clean''⟩
      · unfold skipComment
        rw [shows.bufAt_cons isWin]
        show (if _ then _ else _) = _
        rw [if_neg notEnd]
        show (refillBelow 0 _ >>= _) = _
        rw [refilled]
        exact skips.run
      · have rules := skips.content
        rw [not_or, not_or] at notEnd
        rw [same] at rules
        rw [content, ← rules, skipContent, if_neg notEnd.2.2]
        simp [notEnd.1, notEnd.2.1]

/-- The view at a token, or at the end of the content. -/
structure Stopped (v : View) : Prop where
  skipped : skipContent false v.content = v.content
  atEnd : v.win = [] → v.stream = []
  uncut : Uncut (v.atLeast 4)

theorem Skips.of_step {x : Except Failure Scanner} {w v' : View} {s' : Scanner} (skips : Skips x false w v' s')
    (content : skipContent false v.content = skipContent false w.content) (length : w.content.length ≤ v.content.length) :
    Skips x false v v' s' where
  run := skips.run
  shows := skips.shows
  blocks := skips.blocks
  content := content.trans skips.content
  length := Nat.le_trans skips.length length

section Loop

variable {w : View} {s₁ : Scanner} {rest : List UInt8}

theorem skipSpacesLoop_refilled (refilled : refillBelow 1 s = .ok s₁) (shows : Shows s₁ w) (isWin : w.win = c :: win) :
    skipSpacesLoop (fuel + 1) s =
      if c = eot then
        if s₁.pos ≠ s₁.bufLen then .ok s₁
        else do
          let s ← readSdf { s₁ with pos := 1 }
          if s.bufLen = 1 then return s else skipSpacesLoop fuel s
      else if c = lf then do
        let s ← skipLine s₁ cr
        skipSpacesLoop fuel s
      else if c = cr then do
        let s ← skipLine s₁ lf
        skipSpacesLoop fuel s
      else if c = chr ' ' ∨ c = ht then skipSpacesLoop fuel { s₁ with pos := s₁.pos + 1 }
      else if c = chr '/' then do
        let next ← bufAt s₁ (s₁.pos + 1)
        if next = chr '/' then do
          let s ← skipComment fuel { s₁ with pos := s₁.pos + 2 }
          skipSpacesLoop fuel s
        else return s₁
      else .ok s₁ := by
  rw [skipSpacesLoop, refilled]
  show (bufAt s₁ s₁.pos >>= _) = _
  rw [shows.bufAt_cons isWin]
  rfl

theorem Shows.bufAt_next (shows : Shows s v) (isWin : v.win = c :: win) : bufAt s (s.pos + 1) = .ok (win.headD eot) := by
  have next := shows.next isWin
  have isNext : (v.advance 1).win = win := by
    unfold View.advance
    rw [isWin]
    rfl
  cases win with
  | nil => exact next.bufAt_nil isNext
  | cons d win => exact next.bufAt_cons isNext

theorem skipLine_eq {second : UInt8} (shows : Shows s v) (isWin : v.win = c :: win)
    (terminator : c = lf ∧ second = cr ∨ c = cr ∧ second = lf) :
    ∃ s', skipLine s second = .ok s' ∧ Shows s' (v.advance (if win.head? = some second then 2 else 1)) ∧
      skipContent false v.content = skipContent false (v.advance (if win.head? = some second then 2 else 1)).content ∧
      (v.advance (if win.head? = some second then 2 else 1)).content.length < v.content.length := by
  have notEot : second ≠ eot := by
    rcases terminator with ⟨-, rfl⟩ | ⟨-, rfl⟩ <;> decide
  have blank : isBlank c = true := by
    rcases terminator with ⟨rfl, -⟩ | ⟨rfl, -⟩ <;> rfl
  have blankSecond : isBlank second = true := by
    rcases terminator with ⟨-, rfl⟩ | ⟨-, rfl⟩ <;> rfl
  unfold skipLine
  dsimp only
  show ∃ s', (bufAt s (s.pos + 1) >>= _) = _ ∧ _
  rw [shows.bufAt_next isWin]
  refine ⟨_, rfl, ?_⟩
  by_cases both : win.head? = some second
  · obtain ⟨rest, rfl⟩ : ∃ rest, win = second :: rest := by
      cases win with
      | nil => exact absurd both (by simp)
      | cons d rest => exact ⟨rest, by rw [Option.some.inj both]⟩
    rw [if_pos both, if_pos (show (second :: rest).headD eot = second from rfl)]
    have shows' := shows.advance (l := [c, second]) isWin
    have content : v.content = [c, second] ++ (v.advance 2).content := View.content_advance isWin
    refine ⟨⟨shows'.pos, shows'.holds, shows'.stream⟩, ?_, ?_⟩
    · rw [content]
      exact (skipContent_blank blank _).trans (skipContent_blank blankSecond _)
    · rw [content, List.length_append]
      exact Nat.lt_add_of_pos_left (Nat.zero_lt_succ _)
  · have other : ¬ win.headD eot = second := by
      cases win with
      | nil => exact notEot.symm
      | cons d rest => exact fun isSecond => both (congrArg some isSecond)
    rw [if_neg both, if_neg other]
    have shows' := shows.next isWin
    refine ⟨⟨shows'.pos, shows'.holds, shows'.stream⟩, ?_, ?_⟩
    · rw [View.content_cons isWin, skipContent_blank blank]
    · rw [View.length_next isWin]
      exact Nat.lt_succ_self _

theorem skipSpacesLoop_eq (clean : Clean .separators v) (shows : Shows s v) (blocks : Blocks v.stream)
    (enough : v.content.length < fuel) : ∃ v' s', Skips (skipSpacesLoop fuel s) false v v' s' ∧ Stopped v' := by
  induction fuel generalizing s v with
  | zero => exact absurd enough (Nat.not_lt_zero _)
  | succ fuel ih =>
    obtain ⟨s₁, refilled, shows₁⟩ := refillBelow_eq (n := 1) shows (by omega) blocks
    have blocks₁ := v.stream_atLeast 1 blocks
    have same := v.content_atLeast 1
    cases clean with
    | @separator _ c rest isWin blank clean' =>
      have content := View.content_cons isWin
      have shorter := View.length_next isWin
      rw [same] at content shorter
      obtain ⟨v', s', skips, stopped⟩ := ih clean' (shows₁.next isWin) blocks₁ (by omega)
      have run : skipSpacesLoop (fuel + 1) s = .ok s' := by
        rw [skipSpacesLoop_refilled refilled shows₁ isWin, ← skips.run]
        rcases blank with rfl | rfl <;> rfl
      have isBlank : isBlank c = true := by
        rcases blank with rfl | rfl <;> rfl
      refine ⟨v', s', Skips.of_step ⟨run, skips.shows, skips.blocks, skips.content, skips.length⟩ ?_ (by omega), stopped⟩
      rw [content, skipContent_blank isBlank]
    | @line _ c second rest isWin terminator clean' =>
      obtain ⟨s₂, lineRun, shows₂, content, shorter⟩ := skipLine_eq shows₁ isWin terminator
      rw [same] at content shorter
      obtain ⟨v', s', skips, stopped⟩ := ih clean' shows₂ blocks₁ (by omega)
      have run : skipSpacesLoop (fuel + 1) s = .ok s' := by
        rw [skipSpacesLoop_refilled refilled shows₁ isWin]
        rcases terminator with ⟨rfl, rfl⟩ | ⟨rfl, rfl⟩
        · show (skipLine s₁ cr >>= _) = _
          rw [lineRun]
          exact skips.run
        · show (skipLine s₁ lf >>= _) = _
          rw [lineRun]
          exact skips.run
      exact ⟨v', s', Skips.of_step ⟨run, skips.shows, skips.blocks, skips.content, skips.length⟩ content (by omega), stopped⟩
    | @comment _ rest isWin clean' =>
      have content : (v.atLeast 1).content = [chr '/', chr '/'] ++ ((v.atLeast 1).advance 2).content :=
        View.content_advance isWin
      rw [same] at content
      have length := congrArg List.length content
      rw [List.length_append] at length
      have two : [chr '/', chr '/'].length = 2 := rfl
      have shows₂ := shows₁.advance (l := [chr '/', chr '/']) isWin
      obtain ⟨v₂, s₂, skipped, clean''⟩ := skipComment_eq clean' shows₂ blocks₁ (show _ < fuel by omega)
      have shorter := skipped.length
      obtain ⟨v', s', skips, stopped⟩ := ih clean'' skipped.shows skipped.blocks (by omega)
      have run : skipSpacesLoop (fuel + 1) s = .ok s' := by
        rw [skipSpacesLoop_refilled refilled shows₁ isWin]
        show (bufAt s₁ (s₁.pos + 1) >>= _) = _
        rw [shows₁.bufAt_next isWin]
        show (skipComment fuel { s₁ with pos := s₁.pos + 2 } >>= _) = _
        rw [show skipComment fuel { s₁ with pos := s₁.pos + 2 } = _ from skipped.run]
        exact skips.run
      refine ⟨v', s', Skips.of_step ⟨run, skips.shows, skips.blocks, skips.content, skips.length⟩ ?_ (by omega), stopped⟩
      rw [content, ← skipped.content]
      rfl
    | @token _ c rest isWin notBlank notComment uncut =>
      have content := View.content_cons isWin
      have isNext : (v.atLeast 1).content = c :: (rest ++ (v.atLeast 1).stream.flatten) := by
        unfold View.content
        rw [isWin]
        rfl
      have skipped : skipContent false (v.atLeast 1).content = (v.atLeast 1).content := by
        rw [isNext, skipContent, if_neg (by rw [notBlank]; decide), if_neg notComment]
      have others : c ≠ lf ∧ c ≠ cr ∧ ¬ (c = chr ' ' ∨ c = ht) := by
        refine ⟨?_, ?_, ?_⟩
        · rintro rfl
          exact absurd notBlank (by decide)
        · rintro rfl
          exact absurd notBlank (by decide)
        · rintro (rfl | rfl)
          all_goals exact absurd notBlank (by decide)
      have run : skipSpacesLoop (fuel + 1) s = .ok s₁ := by
        rw [skipSpacesLoop_refilled refilled shows₁ isWin]
        by_cases isEot : c = eot
        · have len := shows₁.bufLen_eq
          rw [isWin, List.length_cons] at len
          rw [if_pos isEot]
          exact if_pos (by omega)
        rw [if_neg isEot, if_neg others.1, if_neg others.2.1, if_neg others.2.2]
        by_cases isSlash : c = chr '/'
        · rw [if_pos isSlash, shows₁.bufAt_next isWin]
          show (if _ then _ else _) = _
          apply if_neg
          intro isNextSlash
          apply notComment
          cases rest with
          | nil => exact absurd isNextSlash (by decide)
          | cons d rest => exact ⟨isSlash, congrArg some isNextSlash⟩
        · exact if_neg isSlash
      refine ⟨v.atLeast 1, s₁, ⟨run, shows₁, blocks₁, by rw [same], by rw [same]⟩, skipped, fun isNil => ?_, uncut⟩
      rw [isNil] at isWin
      exact absurd isWin (by simp)
    | eof isWin =>
      obtain ⟨isNil, noStream⟩ := View.end_of_atLeast blocks isWin
      have len := shows₁.bufLen_eq
      rw [isWin, List.length_nil] at len
      obtain ⟨s₂, read, holds, isPos, isStream, -⟩ := readSdf_eq (l := []) (s := { s₁ with pos := 1 }) (by simp) rfl
        (Nat.zero_le _) (by rw [shows₁.stream]; exact blocks₁)
      have noBlock : s₁.stream = [] := by rw [shows₁.stream, noStream]
      rw [noBlock] at isStream
      have noWin : ([] : List UInt8) ++ ({ s₁ with pos := 1 } : Scanner).stream.headD [] = [] := by
        show s₁.stream.headD [] = []
        rw [noBlock]
        rfl
      rw [noWin] at holds
      have len₂ : s₂.bufLen = 1 := holds.len
      have run : skipSpacesLoop (fuel + 1) s = .ok s₂ := by
        rw [skipSpacesLoop, refilled]
        show (bufAt s₁ s₁.pos >>= _) = _
        rw [shows₁.bufAt_nil isWin]
        show (if s₁.pos ≠ s₁.bufLen then _ else (readSdf _ >>= _)) = _
        rw [if_neg (by omega), read]
        exact if_pos len₂
      refine ⟨⟨1, [], []⟩, s₂, ⟨run, ⟨isPos, holds, isStream⟩, ?_, ?_, Nat.zero_le _⟩, rfl, fun _ => rfl, trivial⟩
      · exact fun block inside => absurd inside List.not_mem_nil
      · rw [isNil]
        rfl

end Loop

variable {p : UInt8 → Bool}

theorem exists_of_dropWhile (some : l.dropWhile p ≠ []) :
    ∃ before d after, l = before ++ d :: after ∧ (∀ c ∈ before, p c = true) ∧ p d = false := by
  obtain ⟨d, after, isRest⟩ := List.exists_cons_of_ne_nil some
  refine ⟨l.takeWhile p, d, after, ?_, fun c inside => List.mem_takeWhile_imp inside, ?_⟩
  · rw [← isRest, List.takeWhile_append_dropWhile]
  have outside := List.head_dropWhile_not p some
  have isHead : (l.dropWhile p).head some = d := by simp [isRest]
  rw [isHead] at outside
  exact outside

theorem all_of_dropWhile (isNil : l.dropWhile p = []) : ∀ c ∈ l, p c = true :=
  List.dropWhile_eq_nil_iff.mp isNil

/-- A loop that goes over some characters, and reads a block at the end of the buffer. -/
structure ScansOver (loop : Nat → Scanner → Except Failure Scanner) (isInside : UInt8 → Bool) : Prop where
  step : ∀ (fuel : Nat) (s : Scanner) (c : UInt8) (win : List UInt8), Holds s.buf s.bufLen (s.pos + 1) (c :: win) →
    isInside c = true → loop (fuel + 1) s = loop fuel { s with pos := s.pos + 1 }
  cut : ∀ (fuel : Nat) (s : Scanner), Holds s.buf s.bufLen (s.pos + 1) [] → loop (fuel + 1) s = (do
    let s ← readAppend { s with pos := s.pos + 1 }
    loop fuel { s with pos := s.pos - 1 })

namespace ScansOver

variable {loop : Nat → Scanner → Except Failure Scanner} {isInside : UInt8 → Bool}

theorem steps (scans : ScansOver loop isInside) (inside : ∀ c ∈ l, isInside c = true)
    (holds : Holds s.buf s.bufLen (s.pos + 1) (l ++ win)) :
    loop (fuel + l.length) s = loop fuel { s with pos := s.pos + l.length } := by
  induction l generalizing s with
  | nil => rfl
  | cons c l ih =>
    have holds' : Holds s.buf s.bufLen (s.pos + 1 + 1) (l ++ win) := holds.drop (l := [c])
    have count : fuel + (c :: l).length = (fuel + l.length) + 1 := rfl
    rw [count, scans.step _ s c (l ++ win) holds (inside c List.mem_cons_self)]
    rw [ih (fun c' inside' => inside c' (List.mem_cons_of_mem c inside')) holds']
    have place : s.pos + 1 + l.length = s.pos + (c :: l).length := by
      rw [List.length_cons]
      omega
    show loop fuel { s with pos := s.pos + 1 + l.length } = _
    rw [place]

theorem cutOnce (scans : ScansOver loop isInside) (fuel : Nat) (inside : ∀ c ∈ win, isInside c = true)
    (holds : Holds s.buf s.bufLen s.identStart win) (isPos : s.pos + 1 = s.identStart) (notFirst : s.identStart ≠ 1)
    (small : win.length < 1024) (blocks : Blocks s.stream) :
    ∃ s', loop (fuel + 1 + win.length) s = loop fuel s' ∧ Holds s'.buf s'.bufLen 1 (win ++ s.stream.headD []) ∧
      s'.pos = win.length ∧ s'.stream = s.stream.tail ∧ s'.identStart = 1 := by
  have whole := holds
  rw [← isPos, ← List.append_nil win] at holds
  rw [← List.append_nil win] at whole
  rw [scans.steps inside holds]
  have atEnd := holds.drop
  have place : s.pos + 1 + win.length = s.pos + win.length + 1 := by omega
  rw [place] at atEnd
  have place' : s.pos + win.length + 1 = s.identStart + win.length := by omega
  rw [scans.cut fuel { s with pos := s.pos + win.length } atEnd]
  obtain ⟨s', read, holds', pos', stream', start'⟩ := readAppend_eq
    (s := { s with pos := s.pos + win.length + 1 }) whole place' notFirst small blocks
  refine ⟨{ s' with pos := s'.pos - 1 }, ?_, holds', ?_, stream', start'⟩
  · show (readAppend _ >>= _) = _
    rw [read]
    rfl
  · show s'.pos - 1 = _
    rw [pos', Nat.add_sub_cancel]

/-- The loop comes to the first character that is not inside. -/
structure Arrives (loop : Nat → Scanner → Except Failure Scanner) (isInside : UInt8 → Bool) (x : Except Failure Scanner)
    (content before : List UInt8) (d : UInt8) (after : List UInt8) (s' : Scanner) : Prop where
  run : ∃ fuel, x = loop (fuel + 1) s'
  holds : Holds s'.buf s'.bufLen s'.identStart (before ++ d :: after)
  pos : s'.pos + 1 = s'.identStart + before.length
  inside : ∀ c ∈ before, isInside c = true
  outside : isInside d = false
  content : before ++ d :: (after ++ s'.stream.flatten) = content
  blocks : Blocks s'.stream

theorem arrives (scans : ScansOver loop isInside) (holds : Holds s.buf s.bufLen s.identStart win)
    (isPos : s.pos + 1 = s.identStart) (small : (∀ c ∈ win, isInside c = true) → win.length < 1024)
    (blocks : Blocks s.stream) (reaches : Reaches isInside ⟨s.identStart, win, s.stream⟩ (s.identStart ≠ 1))
    (enough : (win ++ s.stream.flatten).length + 1 < fuel) :
    ∃ before d after s', Arrives loop isInside (loop fuel s) (win ++ s.stream.flatten) before d after s' := by
  rw [List.length_append] at enough
  by_cases here : win.dropWhile isInside ≠ []
  · obtain ⟨before, d, after, isWin, inside, outside⟩ := exists_of_dropWhile here
    have count : fuel = fuel - before.length - 1 + 1 + before.length := by
      rw [isWin, List.length_append] at enough
      omega
    have holds' := holds
    rw [← isPos, isWin] at holds'
    refine ⟨before, d, after, { s with pos := s.pos + before.length }, ⟨fuel - before.length - 1, ?_⟩, ?_, ?_, inside, outside,
      ?_, blocks⟩
    · rw [count, scans.steps inside holds', ← count]
    · rw [← isWin]
      exact holds
    · show s.pos + before.length + 1 = s.identStart + before.length
      omega
    · show before ++ d :: (after ++ s.stream.flatten) = _
      rw [isWin, List.append_assoc]
      rfl
  obtain ⟨notFirst, later⟩ := reaches.resolve_left here
  have all := all_of_dropWhile (Classical.not_not.mp here)
  have noRest := Classical.not_not.mp here
  have inBlock : (s.stream.headD []).dropWhile isInside ≠ [] := by
    intro isNil
    apply later
    rw [List.dropWhile_eq_nil_iff]
    intro c inside
    rcases List.mem_append.mp inside with inWin | inBlock
    · exact all c inWin
    · exact all_of_dropWhile isNil c inBlock
  obtain ⟨before, d, after, isBlock, inside, outside⟩ := exists_of_dropWhile inBlock
  have flatten := headD_append_flatten s.stream
  have total := congrArg List.length flatten
  rw [List.length_append, isBlock, List.length_append, List.length_cons] at total
  have count : fuel = (fuel - win.length - before.length - 2 + 1 + before.length) + 1 + win.length := by omega
  obtain ⟨s₁, run, holds₁, pos₁, stream₁, start₁⟩ := scans.cutOnce
    (fuel - win.length - before.length - 2 + 1 + before.length) all holds isPos notFirst (small all) blocks
  have inWindow := holds₁.drop
  have place : 1 + win.length = s₁.pos + 1 := by omega
  rw [isBlock, place] at inWindow
  refine ⟨win ++ before, d, after, { s₁ with pos := s₁.pos + before.length }, ⟨fuel - win.length - before.length - 2, ?_⟩,
    ?_, ?_, ?_, outside, ?_, ?_⟩
  · rw [← scans.steps inside inWindow, ← run, ← count]
  · show Holds s₁.buf s₁.bufLen s₁.identStart _
    rw [start₁, List.append_assoc, ← isBlock]
    exact holds₁
  · show s₁.pos + before.length + 1 = s₁.identStart + (win ++ before).length
    rw [start₁, List.length_append]
    omega
  · intro c isInside
    rcases List.mem_append.mp isInside with inWin | inBefore
    · exact all c inWin
    · exact inside c inBefore
  · show win ++ before ++ d :: (after ++ s₁.stream.flatten) = _
    rw [stream₁, ← flatten, isBlock, List.append_assoc, List.append_assoc]
    rfl
  · show Blocks s₁.stream
    rw [stream₁]
    exact blocks.tail

theorem tooLong (scans : ScansOver loop isInside) (holds : Holds s.buf s.bufLen s.identStart win)
    (isPos : s.pos + 1 = s.identStart) (small : (∀ c ∈ win, isInside c = true) → win.length < 1024)
    (blocks : Blocks s.stream) (cut : ¬ Reaches isInside ⟨s.identStart, win, s.stream⟩ (s.identStart ≠ 1))
    (enough : (win ++ s.stream.flatten).length + 1 < fuel) : ∃ line, loop fuel s = .error (.tooLong line) := by
  rw [List.length_append] at enough
  unfold Reaches at cut
  rw [not_or] at cut
  obtain ⟨notHere, notLater⟩ := cut
  have all : ∀ c ∈ win, isInside c = true := all_of_dropWhile (Classical.not_not.mp notHere)
  have atEnd : ∀ (fuel : Nat) (s : Scanner), s.identStart = 1 → Holds s.buf s.bufLen (s.pos + 1) [] →
      ∃ line, loop (fuel + 1) s = .error (.tooLong line) := by
    intro fuel s isFirst holds
    have failed : readAppend { s with pos := s.pos + 1 } = .error (.tooLong s.sdfLine) := readAppend_tooLong isFirst
    rw [scans.cut fuel s holds, failed]
    exact ⟨_, rfl⟩
  by_cases isFirst : s.identStart = 1
  · have count : fuel = fuel - win.length - 1 + 1 + win.length := by omega
    rw [← isPos, ← List.append_nil win] at holds
    rw [count, scans.steps all holds]
    have empty := holds.drop
    rw [Nat.add_right_comm] at empty
    exact atEnd _ { s with pos := s.pos + win.length } isFirst empty
  have allBlock : ∀ c ∈ s.stream.headD [], isInside c = true := by
    intro c inside
    apply all_of_dropWhile (Classical.not_not.mp fun later => notLater ⟨isFirst, later⟩)
    exact List.mem_append_right _ inside
  have total := congrArg List.length (headD_append_flatten s.stream)
  rw [List.length_append] at total
  have count : fuel = (fuel - win.length - (s.stream.headD []).length - 2 + 1 + (s.stream.headD []).length) + 1 + win.length := by
    omega
  obtain ⟨s₁, run, holds₁, pos₁, -, start₁⟩ := scans.cutOnce
    (fuel - win.length - (s.stream.headD []).length - 2 + 1 + (s.stream.headD []).length) all holds isPos isFirst
    (small all) blocks
  have inWindow := holds₁.drop
  have place : 1 + win.length = s₁.pos + 1 := by omega
  rw [place, ← List.append_nil (s.stream.headD [])] at inWindow
  rw [count, run, scans.steps allBlock inWindow]
  have empty := inWindow.drop
  rw [Nat.add_right_comm] at empty
  exact atEnd _ { s₁ with pos := s₁.pos + (s.stream.headD []).length } start₁ empty

end ScansOver

theorem scansOver_scanQstringLoop : ScansOver scanQstringLoop isStringChar where
  step := by
    intro fuel s c win holds inside
    unfold isStringChar at inside
    obtain ⟨notEot, notBad, notQuote⟩ := of_decide_eq_true inside
    rw [scanQstringLoop]
    show (bufAt s (s.pos + 1) >>= _) = _
    rw [holds.bufAt_cons]
    show (if _ then _ else if _ then _ else if _ then _ else _) = _
    rw [if_neg notEot, if_neg (by rw [notBad]; decide), if_neg notQuote]
  cut := by
    intro fuel s holds
    rw [scanQstringLoop]
    show (bufAt s (s.pos + 1) >>= _) = _
    rw [holds.bufAt_nil]
    rfl

theorem scansOver_scanIdentifierLoop : ScansOver scanIdentifierLoop isIdentChar where
  step := by
    intro fuel s c win holds inside
    rw [scanIdentifierLoop]
    show (bufAt s (s.pos + 1) >>= _) = _
    rw [holds.bufAt_cons]
    exact if_pos inside
  cut := by
    intro fuel s holds
    rw [scanIdentifierLoop]
    show (bufAt s (s.pos + 1) >>= _) = _
    rw [holds.bufAt_nil]
    rfl

/-- The token is the one that the rules give, or both are errors. -/
def Yields (x : Except Failure (SdfTokenType × Scanner)) : Option (Token × List UInt8) → Prop
  | none => ∃ failure, x = .error failure ∧ failure.ending = .error
  | some (tok, rest) => ∃ type s' v', x = .ok (type, s') ∧ observe type s' = tok ∧ Shows s' v' ∧ Blocks v'.stream ∧
    v'.content = rest

theorem identText_eq {before : List UInt8} (holds : Holds s.buf s.bufLen s.identStart (before ++ win))
    (isEnd : s.identEnd + 1 = s.identStart + before.length) : identText s = before := by
  unfold identText
  have length : s.identEnd + 1 - s.identStart = before.length := by omega
  rw [length]
  apply List.ext_getElem?
  intro i
  rw [List.getElem?_map]
  by_cases inside : i < before.length
  · rw [List.getElem?_range inside, List.getElem?_eq_getElem inside]
    apply congrArg some
    apply holds.chars
    rw [List.getElem?_append_left inside, List.getElem?_eq_getElem inside]
  · rw [List.getElem?_eq_none (by simpa using inside), List.getElem?_eq_none (by simpa using inside)]
    rfl

theorem takeWhile_arrives {before : List UInt8} (after : List UInt8) (inside : ∀ c ∈ before, p c = true)
    (outside : p d = false) :
    (before ++ d :: after).takeWhile p = before ∧ (before ++ d :: after).dropWhile p = d :: after := by
  have notInside : ¬ p d = true := by
    rw [outside]
    decide
  rw [List.takeWhile_append_of_pos inside, List.dropWhile_append_of_pos inside, List.takeWhile_cons_of_neg notInside,
    List.dropWhile_cons_of_neg notInside, List.append_nil]
  exact ⟨rfl, rfl⟩

/-- Every run of characters on one line is short. -/
def ShortLines (content : List UInt8) : Prop :=
  ∀ l, l <:+: content → (∀ c ∈ l, c ≠ lf ∧ c ≠ cr) → l.length < 1024

theorem ShortLines.suffix {content rest : List UInt8} (short : ShortLines content) (isSuffix : rest <:+ content) :
    ShortLines rest := fun l isInfix line => short l (isInfix.trans isSuffix.isInfix) line

theorem not_line_of_isStringChar (inside : isStringChar c = true) : c ≠ lf ∧ c ≠ cr := by
  constructor
  all_goals
    rintro rfl
    exact absurd inside (by decide)

theorem not_line_of_isIdentChar (inside : isIdentChar c = true) : c ≠ lf ∧ c ≠ cr := by
  constructor
  all_goals
    rintro rfl
    exact absurd inside (by decide)

theorem length_lt_of_line (short : ShortLines v.content) (line : ∀ c, p c = true → c ≠ lf ∧ c ≠ cr)
    (isInfix : l <:+: v.win) (inside : ∀ c ∈ l, p c = true) : l.length < 1024 :=
  short l (isInfix.trans (List.infix_append [] v.win _)) fun c isChar => line c (inside c isChar)

theorem scanQstring_yields (shows : Shows s v) (blocks : Blocks v.stream) (isWin : v.win = chr '"' :: win)
    (uncut : Uncut v) (short : ShortLines v.content) (enough : v.content.length < fuel) :
    Yields (do let s ← scanQstring fuel s; return (.tokQstring, s)) (lexString (v.advance 1).content) := by
  have content : (v.advance 1).content = win ++ s.stream.flatten := by
    unfold View.content View.advance
    rw [isWin, shows.stream]
    rfl
  have length := View.length_next isWin
  rw [content] at length
  have holds : Holds s.buf s.bufLen (s.pos + 1) win := by
    have next := (shows.next isWin).holds
    have isNext : (v.advance 1).win = win := by
      unfold View.advance
      rw [isWin]
      rfl
    have isPos : (v.advance 1).pos = s.pos + 1 := by
      rw [shows.pos]
      rfl
    rw [isNext, isPos] at next
    exact next
  have positive : 1 ≤ s.pos := by
    rw [shows.pos]
    exact shows.holds.start
  have blocks' : Blocks s.stream := by
    rw [shows.stream]
    exact blocks
  have small : (∀ c ∈ win, isStringChar c = true) → win.length < 1024 := fun inside =>
    length_lt_of_line short (fun _ => not_line_of_isStringChar) (by rw [isWin]; exact (List.suffix_cons _ _).isInfix) inside
  have enough' : (win ++ s.stream.flatten).length + 1 < fuel := by omega
  unfold Uncut at uncut
  rw [isWin] at uncut
  dsimp only at uncut
  rw [if_pos rfl, content] at uncut
  rw [content]
  unfold scanQstring
  by_cases reaches : Reaches isStringChar ⟨s.pos + 1, win, s.stream⟩ (s.pos + 1 ≠ 1)
  · obtain ⟨before, d, after, s', arrives⟩ := scansOver_scanQstringLoop.arrives
      (s := { s with identStart := s.pos + 1 }) holds rfl small blocks' reaches enough'
    obtain ⟨fuel', run⟩ := arrives.run
    have isContent : before ++ d :: (after ++ s'.stream.flatten) = win ++ s.stream.flatten := arrives.content
    have here := takeWhile_arrives (after ++ s'.stream.flatten) arrives.inside arrives.outside
    have place := arrives.holds.drop
    rw [← arrives.pos] at place
    have loop : scanQstringLoop (fuel' + 1) s' =
        if d = eot then do
          let s ← readAppend { s' with pos := s'.pos + 1 }
          scanQstringLoop fuel' { s with pos := s.pos - 1 }
        else if isBad d then errorBadCharacter { s' with pos := s'.pos + 1 }
        else if d = chr '"' then .ok { s' with identEnd := s'.pos + 1 - 1, pos := s'.pos + 1 + 1 }
        else scanQstringLoop fuel' { s' with pos := s'.pos + 1 } := by
      rw [scanQstringLoop]
      show (bufAt s' (s'.pos + 1) >>= _) = _
      rw [place.bufAt_cons]
      rfl
    rw [← isContent, here.2] at uncut
    have notEot : d ≠ eot := uncut.1
    show Yields (scanQstringLoop fuel { s with identStart := s.pos + 1 } >>= _) _
    rw [run, loop, if_neg notEot, ← isContent]
    unfold lexString
    rw [here.1, here.2]
    dsimp only
    by_cases bad : isBad d = true
    · have notQuote : d ≠ chr '"' := by
        rintro rfl
        exact absurd bad (by decide)
      rw [if_pos bad, if_neg notQuote]
      exact ⟨_, rfl, rfl⟩
    have isQuote : d = chr '"' := by
      apply Classical.byContradiction
      intro notQuote
      have inside : isStringChar d = true := decide_eq_true ⟨notEot, by simpa using bad, notQuote⟩
      rw [arrives.outside] at inside
      exact absurd inside (by decide)
    rw [if_neg bad, if_pos isQuote, if_pos isQuote]
    have beyond := place.drop (l := [d])
    have isEnd : s'.pos + 1 - 1 + 1 = s'.identStart + before.length := by
      have place' := arrives.pos
      omega
    refine ⟨.tokQstring, _, ⟨s'.pos + 1 + 1, after, s'.stream⟩, rfl, ?_, ⟨rfl, beyond, rfl⟩, arrives.blocks, rfl⟩
    exact congrArg (Token.text .tokQstring)
      (identText_eq (s := { s' with identEnd := s'.pos + 1 - 1, pos := s'.pos + 1 + 1 }) arrives.holds isEnd)
  · obtain ⟨line, run⟩ := scansOver_scanQstringLoop.tooLong
      (s := { s with identStart := s.pos + 1 }) holds rfl small blocks' reaches enough'
    have isNone : lexString (win ++ s.stream.flatten) = none := by
      unfold lexString
      cases isRest : (win ++ s.stream.flatten).dropWhile isStringChar with
      | nil => rfl
      | cons d after =>
        rw [isRest] at uncut
        dsimp only
        apply if_neg
        intro isQuote
        apply reaches
        rcases uncut.2 isQuote with here | ⟨-, later⟩
        · left
          have isNext : (v.advance 1).win = win := by
            unfold View.advance
            rw [isWin]
            rfl
          rwa [isNext] at here
        · right
          have isNext : (v.advance 1).win = win := by
            unfold View.advance
            rw [isWin]
            rfl
          have isStream : (v.advance 1).stream = s.stream := shows.stream.symm
          rw [isNext, isStream] at later
          exact ⟨by omega, later⟩
    show Yields (scanQstringLoop fuel { s with identStart := s.pos + 1 } >>= _) _
    rw [run, isNone]
    exact ⟨_, rfl, rfl⟩

theorem scanIdentifier_yields (shows : Shows s v) (blocks : Blocks v.stream) (isWin : v.win = c :: win)
    (letter : isLetter c = true) (uncut : Uncut v) (short : ShortLines v.content) (enough : v.content.length < fuel) :
    Yields (do let s ← scanIdentifier fuel s; return (.tokIdentifier, s)) (lexIdentifier v.content) := by
  have content : v.content = v.win ++ s.stream.flatten := by
    rw [shows.stream]
    rfl
  have positive : 1 ≤ s.pos := by
    rw [shows.pos]
    exact shows.holds.start
  have blocks' : Blocks s.stream := by
    rw [shows.stream]
    exact blocks
  have holds : Holds s.buf s.bufLen s.pos v.win := by
    rw [shows.pos]
    exact shows.holds
  have isIdent : isIdentChar c = true := decide_eq_true (Or.inl letter)
  have notQuote : c ≠ chr '"' := by
    rintro rfl
    exact absurd letter (by decide)
  have small : (∀ c ∈ v.win, isIdentChar c = true) → v.win.length < 1024 :=
    length_lt_of_line short (fun _ => not_line_of_isIdentChar) (List.infix_refl _)
  have enough' : (v.win ++ s.stream.flatten).length + 1 < fuel + 1 := by
    rw [← content]
    exact Nat.succ_lt_succ enough
  -- The loop may as well start before the first letter.
  let s₀ : Scanner := { s with identStart := s.pos, pos := s.pos - 1 }
  have isPos : s₀.pos + 1 = s₀.identStart := Nat.sub_add_cancel positive
  have first : scanIdentifier fuel s = scanIdentifierLoop (fuel + 1) s₀ := by
    have holds₀ : Holds s₀.buf s₀.bufLen (s₀.pos + 1) (c :: win) := by
      rw [isPos, ← isWin]
      exact holds
    rw [scansOver_scanIdentifierLoop.step fuel s₀ c win holds₀ isIdent, isPos]
    rfl
  unfold Uncut at uncut
  rw [isWin] at uncut
  dsimp only at uncut
  rw [if_neg notQuote, if_pos letter, content] at uncut
  rw [content]
  by_cases reaches : Reaches isIdentChar ⟨s.pos, v.win, s.stream⟩ (s.pos ≠ 1)
  · obtain ⟨before, d, after, s', arrives⟩ := scansOver_scanIdentifierLoop.arrives
      (s := s₀) holds isPos small blocks' reaches enough'
    obtain ⟨fuel', run⟩ := arrives.run
    have isContent : before ++ d :: (after ++ s'.stream.flatten) = v.win ++ s.stream.flatten := arrives.content
    have here := takeWhile_arrives (after ++ s'.stream.flatten) arrives.inside arrives.outside
    have place := arrives.holds.drop
    rw [← arrives.pos] at place
    have loop : scanIdentifierLoop (fuel' + 1) s' =
        if isIdentChar d then scanIdentifierLoop fuel' { s' with pos := s'.pos + 1 }
        else if d = chr '\\' then errorSdf { s' with pos := s'.pos + 1 } "escape character not handled"
        else if d = eot then do
          let s ← readAppend { s' with pos := s'.pos + 1 }
          scanIdentifierLoop fuel' { s with pos := s.pos - 1 }
        else .ok { s' with identEnd := s'.pos + 1 - 1, pos := s'.pos + 1 } := by
      rw [scanIdentifierLoop]
      show (bufAt s' (s'.pos + 1) >>= _) = _
      rw [place.bufAt_cons]
      rfl
    rw [← isContent, here.2] at uncut
    have notEot : d ≠ eot := uncut.1
    rw [first]
    show Yields (scanIdentifierLoop (fuel + 1) s₀ >>= _) _
    rw [run, loop, if_neg (by rw [arrives.outside]; decide), ← isContent]
    unfold lexIdentifier
    rw [here.1, here.2]
    dsimp only
    by_cases escape : d = chr '\\'
    · have isEscape : (d :: (after ++ s'.stream.flatten)).head? = some (chr '\\') := congrArg some escape
      rw [if_pos escape, if_pos isEscape]
      exact ⟨_, rfl, rfl⟩
    have notEscape : ¬ (d :: (after ++ s'.stream.flatten)).head? = some (chr '\\') := fun isEscape =>
      escape (Option.some.inj isEscape)
    rw [if_neg escape, if_neg notEot, if_neg notEscape]
    have isEnd : s'.pos + 1 - 1 + 1 = s'.identStart + before.length := by
      have place' := arrives.pos
      omega
    refine ⟨.tokIdentifier, _, ⟨s'.pos + 1, d :: after, s'.stream⟩, rfl, ?_, ⟨rfl, place, rfl⟩, arrives.blocks, rfl⟩
    exact congrArg (Token.text .tokIdentifier)
      (identText_eq (s := { s' with identEnd := s'.pos + 1 - 1, pos := s'.pos + 1 }) arrives.holds isEnd)
  · obtain ⟨line, run⟩ := scansOver_scanIdentifierLoop.tooLong (s := s₀) holds isPos small blocks' reaches enough'
    have isNone : lexIdentifier (v.win ++ s.stream.flatten) = none := by
      unfold lexIdentifier
      dsimp only
      apply if_pos
      cases isHead : ((v.win ++ s.stream.flatten).dropWhile isIdentChar).head? with
      | none =>
        rw [isHead] at uncut
        exact uncut.elim
      | some d =>
        rw [isHead] at uncut
        rcases uncut.2 with escape | cut
        · rw [escape]
        · unfold Reaches at cut
          rw [← shows.stream, ← shows.pos] at cut
          exact absurd cut reaches
    rw [first]
    show Yields (scanIdentifierLoop (fuel + 1) s₀ >>= _) _
    rw [run, isNone]
    exact ⟨_, rfl, rfl⟩

theorem addDigit_error {value : Int} {failure : Failure} (failed : addDigit value c = .error failure) :
    failure = .constraintError := by
  unfold addDigit at failed
  dsimp only at failed
  split at failed
  · exact absurd failed (by simp)
  · exact (Except.error.inj failed).symm

theorem finishNumber_yields {hasDot isNegative : Bool} (shows : Shows s v) (blocks : Blocks v.stream) :
    Yields (.ok (finishNumber hasDot isNegative s))
      (some (numberToken hasDot isNegative s.scanInt s.scanExp, v.content)) := by
  refine ⟨_, (finishNumber hasDot isNegative s).2, v, rfl, ?_, ?_, blocks, rfl⟩
  · cases hasDot <;> cases isNegative <;> rfl
  · cases isNegative
    · exact shows
    · exact ⟨shows.pos, shows.holds, shows.stream⟩

theorem scanNumberLoop_yields {hasDot isNegative : Bool} (shows : Shows s v) (blocks : Blocks v.stream)
    (enough : v.content.length + v.stream.length < fuel) :
    Yields (scanNumberLoop fuel hasDot isNegative s) (lexNumber hasDot isNegative s.scanInt s.scanExp v.content) := by
  induction fuel generalizing s v hasDot isNegative with
  | zero => exact absurd enough (Nat.not_lt_zero _)
  | succ fuel ih =>
    cases isWin : v.win with
    | nil =>
      have atEnd : s.bufLen = s.pos := by
        rw [shows.bufLen_eq, isWin]
        rfl
      obtain ⟨s₂, read, holds, isPos, isStream, -, isInt, isExp⟩ := readSdf_eq (l := []) (s := { s with pos := 1 }) (by simp)
        rfl (Nat.zero_le _) (by rw [shows.stream]; exact blocks)
      have len : s₂.bufLen = 1 + (s.stream.headD []).length := holds.len
      have shows₂ : Shows s₂ ⟨1, v.stream.headD [], v.stream.tail⟩ := by
        refine ⟨isPos, ?_, ?_⟩
        · rw [← shows.stream]
          exact holds
        · rw [isStream, ← shows.stream]
      have content : v.content = (View.mk 1 (v.stream.headD []) v.stream.tail).content := by
        unfold View.content
        rw [isWin, headD_append_flatten]
        rfl
      have step : scanNumberLoop (fuel + 1) hasDot isNegative s =
          if s₂.bufLen = 1 then .ok (finishNumber hasDot isNegative s₂) else scanNumberLoop fuel hasDot isNegative s₂ := by
        rw [scanNumberLoop, shows.bufAt_nil isWin]
        show (if s.pos ≠ s.bufLen then _ else (readSdf { s with pos := 1 } >>= _)) = _
        rw [if_neg (by omega), read]
        rfl
      have isInt : s₂.scanInt = s.scanInt := isInt
      have isExp : s₂.scanExp = s.scanExp := isExp
      rw [step, content, ← isInt, ← isExp]
      by_cases noBlock : s.stream.headD [] = []
      · have noStream : v.stream = [] := blocks.eq_nil (by rw [← shows.stream]; exact noBlock)
        rw [if_pos (by rw [len, noBlock]; rfl)]
        rw [noStream] at shows₂ ⊢
        exact finishNumber_yields shows₂ fun _ inside => absurd inside List.not_mem_nil
      have some : s.stream.headD [] ≠ [] := noBlock
      have positive := List.length_pos_iff.mpr some
      rw [if_neg (by omega)]
      apply ih shows₂ blocks.tail
      rw [← content]
      show _ + v.stream.tail.length < fuel
      cases isStream : v.stream with
      | nil =>
        rw [shows.stream, isStream] at some
        exact absurd rfl some
      | cons block stream =>
        rw [isStream, List.length_cons] at enough
        rw [List.tail_cons]
        omega
    | cons c win =>
      have next := shows.next isWin
      have shorter := View.length_next isWin
      have enough' : (v.advance 1).content.length + (v.advance 1).stream.length < fuel := by
        show _ + v.stream.length < _
        omega
      rw [View.content_cons isWin, lexNumber, scanNumberLoop, shows.bufAt_cons isWin]
      show Yields (if _ then (addDigit _ _ >>= _) else if _ then (if _ then _ else _) else if _ then (if _ then _ else _) else
        if _ then (if _ then _ else _) else _) _
      by_cases digit : isDigit c = true
      · rw [if_pos digit, if_pos digit]
        cases isValue : addDigit s.scanInt c with
        | error failure =>
          rw [addDigit_error isValue]
          exact ⟨_, rfl, rfl⟩
        | ok value =>
          let s' : Scanner := { s with
            scanInt := value, scanExp := if hasDot then s.scanExp - 1 else s.scanExp, pos := s.pos + 1 }
          show Yields (scanNumberLoop fuel hasDot isNegative s') (lexNumber hasDot isNegative s'.scanInt s'.scanExp _)
          exact ih (s := s') ⟨next.pos, next.holds, next.stream⟩ blocks enough'
      rw [if_neg digit, if_neg digit]
      by_cases dot : c = chr '.'
      · rw [if_pos dot, if_pos dot]
        cases hasDot with
        | true => exact ⟨_, rfl, rfl⟩
        | false => exact ih (s := { s with pos := s.pos + 1 }) next blocks enough'
      rw [if_neg dot, if_neg dot]
      by_cases minus : c = chr '-'
      · rw [if_pos minus, if_pos minus]
        cases isNegative with
        | true => exact ⟨_, rfl, rfl⟩
        | false => exact ih (s := { s with pos := s.pos + 1 }) next blocks enough'
      rw [if_neg minus, if_neg minus]
      by_cases isEot : c = eot
      · have len := shows.bufLen_eq
        rw [isWin, List.length_cons] at len
        rw [if_pos isEot, if_pos isEot, if_pos (by omega)]
        exact ⟨_, rfl, rfl⟩
      · rw [if_neg isEot, if_neg isEot, ← View.content_cons isWin]
        exact finishNumber_yields shows blocks

theorem Blocks.length_le {stream : List (List UInt8)} (blocks : Blocks stream) : stream.length ≤ stream.flatten.length := by
  induction stream with
  | nil => exact Nat.le_refl _
  | cons block stream ih =>
    have positive := List.length_pos_iff.mpr (blocks block List.mem_cons_self).1
    have others := ih fun other inside => blocks other (List.mem_cons_of_mem block inside)
    rw [List.flatten_cons, List.length_append, List.length_cons]
    omega

theorem skipContent_suffix (inComment : Bool) (content : List UInt8) : skipContent inComment content <:+ content := by
  induction content generalizing inComment with
  | nil => exact List.suffix_refl _
  | cons c rest ih =>
    cases inComment with
    | true =>
      rw [skipContent]
      split
      · exact List.suffix_refl _
      · exact (ih _).trans (List.suffix_cons c rest)
    | false =>
      rw [skipContent]
      split
      · exact (ih _).trans (List.suffix_cons c rest)
      · split
        · exact (ih _).trans (List.suffix_cons c rest)
        · exact List.suffix_refl _

theorem getToken_skips (clean : Clean .blanks v) (shows : Shows s v) (blocks : Blocks v.stream)
    (enough : v.content.length < fuel) :
    ∃ v' s', (do let s ← skipSpaces fuel s; refillBelow 4 s) = .ok s' ∧ Shows s' v' ∧ Blocks v'.stream ∧ Uncut v' ∧
      skipContent false v.content = v'.content ∧ (v'.win = [] → s'.bufLen = 1 ∧ v'.content = []) := by
  obtain ⟨v₁, s₁, skips₁, clean₁⟩ := skipBlanks_eq clean shows blocks enough
  have shorter := skips₁.length
  obtain ⟨v₂, s₂, skips₂, stopped⟩ := skipSpacesLoop_eq clean₁ skips₁.shows skips₁.blocks (show _ < fuel by omega)
  obtain ⟨s₃, refilled, shows₃⟩ := refillBelow_eq (n := 4) skips₂.shows (by omega) skips₂.blocks
  have same := v₂.content_atLeast 4
  have run : (do let s ← skipSpaces fuel s; refillBelow 4 s) = .ok s₃ := by
    unfold skipSpaces
    rw [skips₁.run]
    show (skipSpacesLoop fuel s₁ >>= _) = _
    rw [skips₂.run]
    exact refilled
  refine ⟨v₂.atLeast 4, s₃, run, shows₃, View.stream_atLeast v₂ 4 skips₂.blocks, stopped.uncut, ?_, fun isNil => ?_⟩
  · rw [skips₁.content, skips₂.content, stopped.skipped, same]
  obtain ⟨noContent, -⟩ := View.end_of_atLeast skips₂.blocks isNil
  refine ⟨?_, by rw [same, noContent]⟩
  have noWin : v₂.win = [] := (List.append_eq_nil_iff.mp noContent).1
  have atStart : (v₂.atLeast 4).pos = 1 := by
    unfold View.atLeast
    rw [noWin]
    rfl
  rw [shows₃.bufLen_eq, shows₃.pos, atStart, isNil]
  rfl

theorem plain_yields {type : SdfTokenType} (shows : Shows s v) (blocks : Blocks v.stream) (isWin : v.win = c :: win)
    (plain : observe type { s with pos := s.pos + 1 } = .plain type) :
    Yields (.ok (type, { s with pos := s.pos + 1 })) (some (.plain type, (v.advance 1).content)) :=
  ⟨type, _, v.advance 1, rfl, plain, shows.next isWin, blocks, rfl⟩

theorem getToken_yields (clean : Clean .blanks v) (shows : Shows s v) (blocks : Blocks v.stream)
    (short : ShortLines v.content) (enough : 2 * v.content.length < fuel) :
    Yields (getToken fuel s) (lexToken v.content) := by
  obtain ⟨v', s', run, shows', blocks', uncut, content, atEnd⟩ := getToken_skips clean shows blocks (show _ < fuel by omega)
  have isSuffix := skipContent_suffix false v.content
  rw [content] at isSuffix
  have short' := short.suffix isSuffix
  have shorter := isSuffix.length_le
  have few := blocks'.length_le
  have streamLength : v'.content.length = v'.win.length + v'.stream.flatten.length := List.length_append
  have step : getToken fuel s = _ := (bind_assoc (skipSpaces fuel s) (refillBelow 4) _).symm
  unfold lexToken
  rw [step, run, content]
  show Yields (bufAt s' s'.pos >>= _) _
  cases isWin : v'.win with
  | nil =>
    obtain ⟨len, noContent⟩ := atEnd isWin
    rw [shows'.bufAt_nil isWin, noContent]
    show Yields (if s'.bufLen = 1 then _ else _) _
    rw [if_pos len]
    exact ⟨.tokEof, s', v', rfl, rfl, shows', blocks', noContent⟩
  | cons c win =>
    have isContent := View.content_cons isWin
    have len := shows'.bufLen_eq
    rw [isWin, List.length_cons] at len
    have positive : 1 ≤ s'.pos := by
      rw [shows'.pos]
      exact shows'.holds.start
    rw [shows'.bufAt_cons isWin, isContent, lexAt]
    show Yields (if _ then (if _ then _ else _) else if _ then (scanQstring fuel s' >>= _) else if _ then _ else if _ then _ else
      if _ then _ else if _ then _ else if _ then _ else if _ then (scanIdentifier fuel s' >>= _) else
      if _ then _ else _) _
    by_cases isEot : c = eot
    · rw [if_pos isEot, if_pos isEot, if_neg (by omega)]
      exact ⟨_, rfl, rfl⟩
    rw [if_neg isEot, if_neg isEot]
    by_cases isQuote : c = chr '"'
    · rw [if_pos isQuote, if_pos isQuote]
      rw [isQuote] at isWin
      exact scanQstring_yields shows' blocks' isWin uncut short' (by omega)
    rw [if_neg isQuote, if_neg isQuote]
    by_cases isDiv : c = chr '/'
    · rw [if_pos isDiv, if_pos isDiv]
      exact plain_yields shows' blocks' isWin rfl
    rw [if_neg isDiv, if_neg isDiv]
    by_cases isDot : c = chr '.'
    · rw [if_pos isDot, if_pos isDot]
      exact plain_yields shows' blocks' isWin rfl
    rw [if_neg isDot, if_neg isDot]
    by_cases isCln : c = chr ':'
    · rw [if_pos isCln, if_pos isCln]
      exact plain_yields shows' blocks' isWin rfl
    rw [if_neg isCln, if_neg isCln]
    by_cases isOparen : c = chr '('
    · rw [if_pos isOparen, if_pos isOparen]
      exact plain_yields shows' blocks' isWin rfl
    rw [if_neg isOparen, if_neg isOparen]
    by_cases isCparen : c = chr ')'
    · rw [if_pos isCparen, if_pos isCparen]
      exact plain_yields shows' blocks' isWin rfl
    rw [if_neg isCparen, if_neg isCparen]
    by_cases letter : isLetter c = true
    · rw [if_pos letter, if_pos letter, ← isContent]
      exact scanIdentifier_yields shows' blocks' isWin letter uncut short' (by omega)
    rw [if_neg letter, if_neg letter]
    by_cases digit : isDigit c = true ∨ c = chr '-'
    · rw [if_pos digit, if_pos digit, ← isContent]
      exact scanNumberLoop_yields (s := { s' with scanInt := 0, scanExp := 0 }) ⟨shows'.pos, shows'.holds, shows'.stream⟩
        blocks' (by omega)
    · rw [if_neg digit, if_neg digit]
      exact ⟨_, rfl, rfl⟩

end Ghdl.Sdf
