import ShellIndex.Proofs.Call.ProgramCalls

set_option autoImplicit false

/-! # Redirections of a command

Redirections may stand before, between and behind the words of a command. The tracker takes the word
behind a redirection sign for its target. Any other mark behind the sign makes it forget that: the
target of `>|` is read as a command, and the number behind `>&` as any other word. A number before a
sign is read as any other word too, and behind the ampersand of `&>` a command is expected.

What is listed in front of a command in place of its name, and among its arguments, follows from one
flag: whether a command is expected (`Item.expects`, `Item.listed`, `callsOf_itemText`).
-/

namespace ShellIndex.Program

open Text Source Call

/-! ## Redirections -/

/-- The number of a file descriptor. -/
structure Number where
  text : String
  ne_empty : text ≠ ""
  digits : text.toList.all Char.isDigit = true

inductive Sign where
  /-- `>` -/
  | write
  /-- `>>` -/
  | append
  /-- `<` -/
  | read
deriving DecidableEq, Repr

def Sign.text : Sign → List Char
  | .write => ['>']
  | .append => ['>', '>']
  | .read => ['<']

/-- A redirection. A blank may stand before its target. -/
inductive Redirection where
  /-- `[n]>w`, `[n]>>w` or `[n]<w` -/
  | file (number : Option Number) (sign : Sign) (apart : Bool) (target : PlainWord)
  /-- `>|w` -/
  | overwrite (apart : Bool) (target : PlainWord)
  /-- `&>w` -/
  | both (apart : Bool) (target : PlainWord)
  /-- `[n]>&m` or `[n]<&m` -/
  | duplicate (number : Option Number) (reads : Bool) (source : Number)

/-- A word of a command or a redirection. -/
inductive Item where
  | word (w : PlainWord)
  /-- A redirection, which need not stand apart from what is before it unless it has a number. -/
  | redirection (apart : Bool) (r : Redirection)

/-- A blank or none. -/
def blankIf (apart : Bool) : List Char := if apart then [' '] else []

def numberText (number : Option Number) : List Char := (number.map (·.text.toList)).getD []

def Redirection.text : Redirection → List Char
  | .file number sign apart target =>
      numberText number ++ (sign.text ++ (blankIf apart ++ target.text.toList))
  | .overwrite apart target => ">|".toList ++ (blankIf apart ++ target.text.toList)
  | .both apart target => "&>".toList ++ (blankIf apart ++ target.text.toList)
  | .duplicate number reads source =>
      numberText number ++ ((if reads then "<&" else ">&").toList ++ source.text.toList)

/-- Whether a redirection starts with a number. -/
def Redirection.isNumbered : Redirection → Bool
  | .file number _ _ _ => number.isSome
  | .duplicate number _ _ => number.isSome
  | .overwrite _ _ => false
  | .both _ _ => false

def Item.text : Item → List Char
  | .word w => w.text.toList
  | .redirection _ r => r.text

/-- What separates an item from the one before it. -/
def Item.gap : Item → List Char
  | .word _ => [' ']
  | .redirection apart r => blankIf (apart || r.isNumbered)

/-- The items behind the first one, each with what separates it. -/
def moreText (items : List Item) : List Char := items.flatMap fun item => item.gap ++ item.text

def itemText : List Item → List Char
  | [] => []
  | item :: items => item.text ++ moreText items

/-! ## What is listed -/

/-- Whether a command is expected behind a redirection, if one is expected before it or not. -/
def Redirection.expects (r : Redirection) (expected : Bool) : Bool :=
  match r with
  | .file none _ _ _ => expected
  | .file (some _) _ _ _ => false
  | .overwrite _ _ => false
  | .both _ _ => true
  | .duplicate _ _ _ => false

/-- What is read as a command in a redirection, if one is expected before it or not. -/
def Redirection.listed (r : Redirection) (expected : Bool) : List String :=
  match r with
  | .file none _ _ _ => []
  | .file (some number) _ _ _ => if expected then [number.text] else []
  | .overwrite _ target => [target.text]
  | .both _ _ => []
  | .duplicate none _ source => if expected then [source.text] else []
  | .duplicate (some number) _ _ => if expected then [number.text] else []

def Item.expects (item : Item) (expected : Bool) : Bool :=
  match item with
  | .word _ => false
  | .redirection _ r => r.expects expected

def Item.listed (item : Item) (expected : Bool) : List String :=
  match item with
  | .word w => if expected then [w.text] else []
  | .redirection _ r => r.listed expected

/-- Whether a command is expected behind some items. -/
def expectsBehind (items : List Item) (expected : Bool) : Bool :=
  items.foldl (fun expected item => item.expects expected) expected

/-- What is read as a command in some items. -/
def listedIn : List Item → Bool → List String
  | [], _ => []
  | item :: items, expected => item.listed expected ++ listedIn items (item.expects expected)

theorem listedIn_append (items items' : List Item) (expected : Bool) :
    listedIn (items ++ items') expected =
      listedIn items expected ++ listedIn items' (expectsBehind items expected) := by
  induction items generalizing expected with
  | nil => rfl
  | cons item items ih =>
      rw [List.cons_append, listedIn, ih, listedIn, List.append_assoc]
      rfl

/-! ## Among the words of a command -/

section
variable {b b' : Bool} {k : Cursor} {m : Lexeme}

/-- The tracker reads a command, and neither a variable, a definition nor a wrapper stands
before. -/
structure AmongWords (b : Bool) (k : Cursor) : Prop extends Within [] b k where
  afterDollar_eq : k.afterDollar = false
  afterFunction_eq : k.afterFunction = false
  afterWrapper_eq : k.afterWrapper = false

/-- The next word is a word of the command. -/
structure Ready (b : Bool) (k : Cursor) : Prop extends AmongWords b k where
  afterRedirection_eq : k.afterRedirection = false
  no_redirection : k.followsRedirection = false

/-- The next word is a target. -/
structure AfterSign (b : Bool) (k : Cursor) : Prop extends AmongWords b k where
  afterRedirection_eq : k.afterRedirection = true
  follows_redirection : k.followsRedirection = true

theorem ready_start : Ready true Tracker.start.startLine :=
  ⟨⟨⟨rfl, rfl, rfl⟩, rfl, rfl, rfl⟩, rfl, rfl⟩

theorem AmongWords.with_atCommand (h : AmongWords b k) (b' : Bool) :
    AmongWords b' { k with atCommand := b' } :=
  ⟨⟨h.cases_eq, rfl, h.inArray_eq⟩, h.afterDollar_eq, h.afterFunction_eq, h.afterWrapper_eq⟩

theorem Ready.with_atCommand (h : Ready b k) (b' : Bool) : Ready b' { k with atCommand := b' } :=
  ⟨h.toAmongWords.with_atCommand b', h.afterRedirection_eq, h.no_redirection⟩

theorem Ready.called (h : Ready b k) :
    Ready false { k with afterWrapper := false, atCommand := false } :=
  ⟨⟨⟨h.cases_eq, rfl, h.inArray_eq⟩, h.afterDollar_eq, h.afterFunction_eq, rfl⟩,
    h.afterRedirection_eq, h.no_redirection⟩

theorem AmongWords.reading (h : AmongWords b k) (text : String) (defines : Bool) :
    Ready b (reading k text defines) :=
  ⟨⟨⟨h.cases_eq, h.atCommand_eq, h.inArray_eq⟩, rfl, rfl, h.afterWrapper_eq⟩, rfl, rfl⟩

theorem AmongWords.mark (h : AmongWords b k) (hi : Within [] b' (k.interpret m)) :
    AmongWords b' (k.mark m) := by
  refine ⟨⟨hi.cases_eq, hi.atCommand_eq, hi.inArray_eq⟩, ?_, ?_, ?_⟩
  · simp [Cursor.mark, h.afterDollar_eq]
  · rw [← h.afterFunction_eq, ← interpret_afterFunction k m]
    rfl
  · simp [Cursor.mark, h.afterWrapper_eq]

theorem AmongWords.sign (h : AmongWords b k) : AfterSign b (k.mark (.redirection false)) := by
  refine ⟨h.mark ?_, rfl, rfl⟩
  rw [h.interpret_eq rfl]
  exact h.toWithin

theorem AmongWords.bar (h : AmongWords b k) : Ready true (k.mark .bar) := by
  refine ⟨h.mark ?_, rfl, rfl⟩
  rw [h.interpret_eq rfl]
  exact ⟨h.cases_eq, rfl, h.inArray_eq⟩

/-- Behind a sign an ampersand belongs to it. -/
theorem AfterSign.ampersand (h : AfterSign b k) : Ready b (k.mark .ampersand) := by
  refine ⟨h.mark ?_, rfl, rfl⟩
  rw [h.interpret_eq rfl, Cursor.markInCode, h.follows_redirection]
  exact h.toWithin

/-- Before a sign an ampersand ends a command. -/
theorem Ready.ampersand (h : Ready b k) : Ready true (k.mark .ampersand) := by
  refine ⟨h.mark ?_, rfl, rfl⟩
  rw [h.interpret_eq rfl, Cursor.markInCode, h.no_redirection]
  exact ⟨h.cases_eq, rfl, h.inArray_eq⟩

/-! ## Signs, targets and numbers -/

/-- What may follow a redirection sign that is none of a process substitution. -/
def NoParens (rest : List Char) : Prop := rest.head? ≠ some '('

theorem noParens_cons {c : Char} (hc : c ≠ '(') (s : List Char) : NoParens (c :: s) := by
  simpa [NoParens] using hc

theorem tracks_blankIf {pre : Cursor → Prop} (apart : Bool) :
    Tracks Anything pre (blankIf apart) pre [] := by
  cases apart with
  | false => exact Tracks.nil
  | true => exact tracks_blank

theorem tracks_sign {c : Char} (hc : c = '>' ∨ c = '<') :
    Tracks NoParens (AmongWords b) [c] (AfterSign b) [] := by
  have hmark : ∀ rest, NoParens rest → Lexeme.punctuation? c rest = some (.redirection false) := by
    intro rest hrest
    have hparen : (rest.head? == some '(') = false := by simpa [NoParens] using hrest
    rcases hc with rfl | rfl <;> simp only [Lexeme.punctuation?, hparen]
  refine tracks_mark (.redirection false) ?_ ?_ hmark (by simp) fun k hk => ⟨hk.sign, rfl⟩
  · rcases hc with rfl | rfl <;> decide
  · rcases hc with rfl | rfl <;> decide

theorem Sign.tracks (sign : Sign) : Tracks NoParens (Ready b) sign.text (AfterSign b) [] := by
  have hfirst : ∀ c, c = '>' ∨ c = '<' → Tracks NoParens (Ready b) [c] (AfterSign b) [] :=
    fun c hc => (tracks_sign hc).imp (fun _ hk => hk.toAmongWords) fun _ hk => hk
  cases sign with
  | write => exact hfirst '>' (Or.inl rfl)
  | read => exact hfirst '<' (Or.inr rfl)
  | append =>
      have hsecond : Tracks NoParens (AfterSign b) ['>'] (AfterSign b) [] :=
        (tracks_sign (Or.inl rfl)).imp (fun _ hk => hk.toAmongWords) fun _ hk => hk
      exact (hfirst '>' (Or.inl rfl)).silent_append hsecond fun rest _ =>
        noParens_cons (by decide) rest

/-- A plain word is a call where a command is expected, and an argument elsewhere. -/
theorem PlainWord.word_ready (w : PlainWord) (h : Ready b k) :
    Ready false (k.word w.text false).1 ∧
      (k.word w.text false).2.toList = if b then [w.text] else [] := by
  have hread := h.toAmongWords.reading w.text false
  have hplace : (reading k w.text false).place w.text false false false =
      if false || !b then ({ reading k w.text false with atCommand := false }, none)
      else (reading k w.text false).command w.text false := hread.toWithin.place_eq rfl false
  rw [word_eq, h.afterDollar_eq, h.afterRedirection_eq, h.afterFunction_eq, Bool.false_or,
    hplace]
  cases b with
  | false => exact ⟨hread.with_atCommand false, rfl⟩
  | true =>
      rw [if_neg (by simp), w.command_eq, if_neg (by simp [hread.afterWrapper_eq]),
        if_neg (by simp)]
      exact ⟨hread.called, rfl⟩

theorem PlainWord.tracks_ready (w : PlainWord) :
    Tracks EndsWord (Ready b) w.text.toList (Ready false) (if b then [w.text] else []) :=
  tracks_wordDefining false w.isToken.toIsWord fun _ hk => w.word_ready hk

/-- The target of a redirection is skipped. -/
theorem PlainWord.tracks_behindSign (w : PlainWord) (apart : Bool) :
    Tracks EndsRun (AfterSign b) (blankIf apart ++ w.text.toList) (Ready b) [] := by
  have hword : Tracks EndsRun (AfterSign b) w.text.toList (Ready b) [] := by
    refine tracks_word w.isToken.toIsWord fun k defines hk => ?_
    rw [word_eq, hk.afterRedirection_eq, Cursor.place, if_pos (by simp)]
    exact ⟨hk.toAmongWords.reading w.text defines, rfl⟩
  exact (tracks_blankIf apart).before hword

/-- A number is a plain word. -/
def Number.toPlainWord (n : Number) : PlainWord where
  text := n.text
  ne_empty := n.ne_empty
  plain := by
    refine List.all_eq_true.mpr fun c hc => ?_
    have hdigit : c.isDigit = true := List.all_eq_true.mp n.digits c hc
    have halphanumeric := isAlphanumeric_of_isAlphanum (c := c) (by simp [Char.isAlphanum, hdigit])
    simp [isPlain, halphanumeric]
  unreserved := by
    have hnone : ∀ t ∈ reservedWords ++ wrappers, t.toList.all Char.isDigit = false := by decide
    rw [← not_or, ← List.mem_append]
    intro hmem
    exact absurd n.digits (by simp [hnone n.text hmem])

theorem Number.tracks (n : Number) :
    Tracks EndsWord (Ready b) n.text.toList (Ready false) (if b then [n.text] else []) :=
  n.toPlainWord.tracks_ready

/-! ## Redirections and items -/

theorem PlainWord.exists_cons (w : PlainWord) :
    ∃ c s, w.text.toList = c :: s ∧ isPlain c = true := by
  have hne : w.text.toList ≠ [] := by simpa using w.ne_empty
  obtain ⟨c, s, hs⟩ := List.exists_cons_of_ne_nil hne
  exact ⟨c, s, hs, List.all_eq_true.mp w.plain c (by simp [hs])⟩

theorem noParens_target (apart : Bool) (w : PlainWord) (rest : List Char) :
    NoParens (blankIf apart ++ w.text.toList ++ rest) := by
  cases apart with
  | true => exact noParens_cons (by decide) _
  | false =>
      obtain ⟨c, s, hs, hc⟩ := w.exists_cons
      rw [hs]
      exact noParens_cons (ne_of_isPlain hc (by decide)) _

theorem tracks_amp : Tracks Anything (Ready b) ['&'] (Ready true) [] :=
  tracks_lone .ampersand (by decide) (by decide) (fun _ => rfl) (by simp) fun _ hk =>
    ⟨hk.ampersand, rfl⟩

theorem tracks_signAmp (reads : Bool) :
    Tracks Anything (Ready b) (if reads then "<&" else ">&").toList (Ready b) [] := by
  have hamp : Tracks Anything (AfterSign b) ['&'] (Ready b) [] :=
    tracks_lone .ampersand (by decide) (by decide) (fun _ => rfl) (by simp) fun _ hk =>
      ⟨hk.ampersand, rfl⟩
  have hboth : ∀ sign : Sign, Tracks Anything (Ready b) (sign.text ++ ['&']) (Ready b) [] :=
    fun sign => sign.tracks.silent_append hamp fun rest _ => noParens_cons (by decide) rest
  cases reads with
  | true => exact hboth .read
  | false => exact hboth .write

theorem tracks_signBar : Tracks Anything (Ready b) ">|".toList (Ready true) [] := by
  have hbar : Tracks Anything (AfterSign b) ['|'] (Ready true) [] :=
    tracks_lone .bar (by decide) (by decide) (fun _ => rfl) (by simp) fun _ hk => ⟨hk.bar, rfl⟩
  have hboth : Tracks Anything (Ready b) (Sign.write.text ++ ['|']) (Ready true) [] :=
    Sign.write.tracks.silent_append hbar fun rest _ => noParens_cons (by decide) rest
  exact hboth

theorem Sign.tracks_file (sign : Sign) (apart : Bool) (w : PlainWord) :
    Tracks EndsWord (Ready b) (sign.text ++ (blankIf apart ++ w.text.toList)) (Ready b) [] :=
  (sign.tracks.silent_append (w.tracks_behindSign apart) fun rest _ =>
    noParens_target apart w rest).endsWord

theorem Sign.endsWord (sign : Sign) (rest : List Char) : EndsWord (sign.text ++ rest) := by
  cases sign <;> exact endsWord_mark (by decide) (by decide) (by decide) _

theorem endsWord_signAmp (reads : Bool) (rest : List Char) :
    EndsWord ((if reads then "<&" else ">&").toList ++ rest) := by
  cases reads <;> exact endsWord_mark (by decide) (by decide) (by decide) _

/-- **One redirection.** -/
theorem Redirection.tracks (r : Redirection) :
    Tracks EndsWord (Ready b) r.text (Ready (r.expects b)) (r.listed b) := by
  cases r with
  | file number sign apart target =>
      cases number with
      | none => exact sign.tracks_file apart target
      | some n =>
          refine n.tracks.append_silent (sign.tracks_file apart target) fun rest _ => ?_
          rw [List.append_assoc]
          exact sign.endsWord _
  | overwrite apart target =>
      -- Behind the bar the target stands where a command is expected.
      have htarget : Tracks EndsWord (Ready true) (blankIf apart ++ target.text.toList)
          (Ready false) [target.text] := (tracks_blankIf apart).before target.tracks_ready
      exact tracks_signBar.before htarget
  | both apart target => exact tracks_amp.before (Sign.write.tracks_file apart target)
  | duplicate number reads source =>
      -- The ampersand takes the sign back, so that the number behind it is a word again.
      cases number with
      | none => exact (tracks_signAmp reads).before source.tracks
      | some n =>
          have hsource : Tracks EndsWord (Ready false) _ (Ready false) [] :=
            (tracks_signAmp reads).before source.tracks
          refine n.tracks.append_silent hsource fun rest _ => ?_
          rw [List.append_assoc]
          exact endsWord_signAmp reads _

theorem Item.tracks (item : Item) :
    Tracks EndsWord (Ready b) item.text (Ready (item.expects b)) (item.listed b) := by
  cases item with
  | word w => exact w.tracks_ready
  | redirection apart r => exact r.tracks

/-! ## The items of a command -/

/-- The first character of a redirection, which belongs to no word unless it is a number. -/
theorem Redirection.exists_cons (r : Redirection) :
    ∃ c s, r.text = c :: s ∧ isBlank c = false ∧ c ≠ '(' ∧
      (r.isNumbered = false → Lexeme.isWordChar c = false) := by
  have hnumber : ∀ (n : Number) (rest : List Char), ∃ c s,
      n.text.toList ++ rest = c :: s ∧ isBlank c = false ∧ c ≠ '(' := by
    intro n rest
    obtain ⟨c, s, hs, hc⟩ := n.toPlainWord.exists_cons
    have htext : n.text.toList ++ rest = c :: (s ++ rest) := congrArg (· ++ rest) hs
    exact ⟨c, s ++ rest, htext, isBlank_of_isPlain hc, ne_of_isPlain hc (by decide)⟩
  cases r with
  | file number sign apart target =>
      cases number with
      | none => cases sign <;> exact ⟨_, _, rfl, by decide, by decide, fun _ => by decide⟩
      | some n =>
          obtain ⟨c, s, hs, hblank, hparen⟩ := hnumber n (sign.text ++ _)
          exact ⟨c, s, hs, hblank, hparen, fun h => by cases h⟩
  | overwrite apart target => exact ⟨_, _, rfl, by decide, by decide, fun _ => by decide⟩
  | both apart target => exact ⟨_, _, rfl, by decide, by decide, fun _ => by decide⟩
  | duplicate number reads source =>
      cases number with
      | none => cases reads <;> exact ⟨_, _, rfl, by decide, by decide, fun _ => by decide⟩
      | some n =>
          obtain ⟨c, s, hs, hblank, hparen⟩ :=
            hnumber n ((if reads then "<&" else ">&").toList ++ _)
          exact ⟨c, s, hs, hblank, hparen, fun h => by cases h⟩

/-- A word ends where the next item starts. -/
theorem Item.endsWord (item : Item) (rest : List Char) :
    EndsWord (item.gap ++ item.text ++ rest) := by
  cases item with
  | word w =>
      obtain ⟨c, s, hs, hc⟩ := w.exists_cons
      rw [Item.gap, Item.text, hs]
      exact endsWord_blank (isBlank_of_isPlain hc) (ne_of_isPlain hc (by decide)) _
  | redirection apart r =>
      obtain ⟨c, s, hs, hblank, hparen, hmark⟩ := r.exists_cons
      rw [Item.gap, Item.text, hs]
      cases hgap : apart || r.isNumbered with
      | true => exact endsWord_blank hblank hparen _
      | false => exact endsWord_mark (hmark (Bool.or_eq_false_iff.mp hgap).2) hblank hparen _

theorem Item.tracks_gap (item : Item) : Tracks Anything (Ready b) item.gap (Ready b) [] := by
  cases item with
  | word w => exact tracks_blank
  | redirection apart r => exact tracks_blankIf _

theorem endsWord_moreText (items : List Item) {rest : List Char} (h : EndsWord rest) :
    EndsWord (moreText items ++ rest) := by
  cases items with
  | nil => exact h
  | cons item items =>
      rw [moreText, List.flatMap_cons, List.append_assoc]
      exact item.endsWord _

/-- **The items of a command**, one after another. -/
theorem tracks_moreText (items : List Item) :
    Tracks EndsWord (Ready b) (moreText items) (Ready (expectsBehind items b))
      (listedIn items b) := by
  induction items generalizing b with
  | nil => exact Tracks.nil
  | cons item items ih =>
      have hitem := item.tracks_gap.before (item.tracks (b := b))
      exact hitem.append ih fun rest h => endsWord_moreText items h

theorem tracks_itemText (items : List Item) :
    Tracks EndsWord (Ready b) (itemText items) (Ready (expectsBehind items b))
      (listedIn items b) := by
  cases items with
  | nil => exact Tracks.nil
  | cons item items =>
      exact item.tracks.append (tracks_moreText items) fun rest h => endsWord_moreText items h

end

/-! ## What redirections show -/

section
variable {last : Option Char}

theorem shows_blankIf (apart : Bool) : Shows [] last (blankIf apart) (blankIf apart) [] := by
  cases apart with
  | false => exact Shows.nil
  | true => exact shows_marks rfl (by decide)

theorem Number.shows (n : Number) : Shows [] last n.text.toList n.text.toList [] :=
  n.toPlainWord.shows rfl

theorem shows_numberText (number : Option Number) :
    Shows [] last (numberText number) (numberText number) [] := by
  cases number with
  | none => exact Shows.nil
  | some n => exact n.shows

theorem shows_target (apart : Bool) (w : PlainWord) :
    Shows [] last (blankIf apart ++ w.text.toList) (blankIf apart ++ w.text.toList) [] :=
  (shows_blankIf apart).append (w.shows rfl)

/-- The sign of a redirection shows if what follows is no sign. -/
theorem Sign.shows_file (sign : Sign) (apart : Bool) (w : PlainWord) :
    Shows [] last (sign.text ++ (blankIf apart ++ w.text.toList))
      (sign.text ++ (blankIf apart ++ w.text.toList)) [] := by
  cases sign with
  | write => exact (shows_marks (s := ['>']) rfl (by decide)).append (shows_target apart w)
  | append => exact (shows_marks (s := ['>', '>']) rfl (by decide)).append (shows_target apart w)
  | read =>
      -- A second `<` would start a here-document.
      have htarget : Shows [] (some '<') _ _ [] := shows_target apart w
      cases apart with
      | true => exact Shows.lessThan rfl (by decide) htarget
      | false =>
          obtain ⟨c, s, hs, hc⟩ := w.exists_cons
          rw [blankIf, if_neg (by decide), List.nil_append, hs] at htarget ⊢
          exact Shows.lessThan rfl (ne_of_isPlain hc (by decide)) htarget

theorem Redirection.shows (r : Redirection) : Shows [] last r.text r.text [] := by
  cases r with
  | file number sign apart target =>
      exact (shows_numberText number).append (sign.shows_file apart target)
  | overwrite apart target =>
      exact (shows_marks (s := ['>', '|']) rfl (by decide)).append (shows_target apart target)
  | both apart target =>
      exact (shows_marks (s := ['&', '>']) rfl (by decide)).append (shows_target apart target)
  | duplicate number reads source =>
      refine (shows_numberText number).append ?_
      cases reads with
      | false => exact (shows_marks (s := ['>', '&']) rfl (by decide)).append source.shows
      | true =>
          refine Shows.lessThan (c := '&') rfl (by decide) ?_
          exact (shows_marks (s := ['&']) rfl (by decide)).append source.shows

theorem Item.shows (item : Item) : Shows [] last item.text item.text [] := by
  cases item with
  | word w => exact w.shows rfl
  | redirection apart r => exact r.shows

theorem Item.shows_gap (item : Item) : Shows [] last item.gap item.gap [] := by
  cases item with
  | word w => exact shows_blankIf true
  | redirection apart r => exact shows_blankIf _

theorem shows_itemText (items : List Item) :
    Shows [] last (itemText items) (itemText items) [] := by
  cases items with
  | nil => exact Shows.nil
  | cons item items =>
      exact item.shows.append
        (shows_flatMap (fun item _ => item.shows_gap.append item.shows) items)

end

/-! ## The calls of a line -/

/-- **A command among redirections.** What is called follows from what each of its words and
redirections makes of command position. -/
theorem callsOf_itemText (items : List Item) :
    callsOf (String.ofList (itemText items)) = listedIn items true := by
  calc callsOf (String.ofList (itemText items))
      = Tracker.start.calls (lines (itemText items)) := by
        rw [callsOf, (shows_itemText items).map_code_scan.1]
    _ = listedIn items true := (tracks_itemText items).calls_lines_start ready_start

end ShellIndex.Program
