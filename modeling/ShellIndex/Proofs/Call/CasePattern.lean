import ShellIndex.Proofs.Call.Redirection

set_option autoImplicit false

/-! # Patterns with parentheses

The tracker takes the first closing parenthesis among the patterns of an arm for their end. In an
extended pattern such as `+([0-9])` or `@(a|b)` that is a parenthesis of the pattern itself. What
follows it is read as code, in which a command is expected behind the parenthesis and behind each
bar, but not behind the parenthesis in which the patterns do end.

How a pattern is read follows from the side of that parenthesis on which each part of it stands
(`Side`, `Alternatives.tracks`).
-/

namespace ShellIndex.Program

open Text Source Call

/-! ## Patterns -/

/-- A character of a pattern that is part of a word. -/
def isGlob (c : Char) : Bool := !isBlank c && Lexeme.isWordChar c && isInert c

/-- A word of a pattern. It may hold wildcards, brackets and equals signs. -/
structure GlobWord where
  text : String
  ne_empty : text ≠ ""
  glob : text.toList.all isGlob = true
  unreserved : text ∉ reservedWords ∧ text ∉ wrappers

/-- What stands in front of the alternatives in parentheses: text up to an operator. -/
structure Opener where
  text : String
  glob : text.toList.all isGlob = true
  operator : text.toList.getLast?.any (['?', '*', '+', '@', '!'].contains ·) = true

mutual

inductive Pattern where
  | empty
  | word (w : GlobWord)
  /-- `opener(inside)rest`, as in `+([0-9])` and `lib@(a|b).so` -/
  | group (opener : Opener) (inside : Alternatives) (rest : Pattern)

/-- Patterns with bars between them. Blanks may stand around a bar. -/
inductive Alternatives where
  | last (p : Pattern)
  | more (p : Pattern) (spaced : Bool) (rest : Alternatives)

end

mutual

def Pattern.text : Pattern → List Char
  | .empty => []
  | .word w => w.text.toList
  | .group opener inside rest =>
      opener.text.toList ++ ("(".toList ++ (inside.text ++ (")".toList ++ rest.text)))

def Alternatives.text : Alternatives → List Char
  | .last p => p.text
  | .more p spaced rest =>
      p.text ++ (blankIf spaced ++ ("|".toList ++ (blankIf spaced ++ rest.text)))

end

mutual

/-- Whether a pattern has parentheses of its own. -/
def Pattern.hasParens : Pattern → Bool
  | .empty => false
  | .word _ => false
  | .group _ _ _ => true

def Alternatives.hasParens : Alternatives → Bool
  | .last p => p.hasParens
  | .more p _ rest => p.hasParens || rest.hasParens

end

/-- Whether nothing stands between two parentheses. -/
def Alternatives.isEmpty : Alternatives → Bool
  | .last .empty => true
  | _ => false

/-! ## What is listed -/

/-- On which side of the first closing parenthesis something stands. -/
inductive Side where
  /-- In front of it patterns are read. -/
  | before
  /-- Behind it code is read, in which a command is expected or not. -/
  | behind (expected : Bool)
deriving DecidableEq, Repr

/-- Whether a word is passed over where a command is expected. -/
def isPassed (text : String) (defines : Bool) : Bool :=
  text == "!" || isAssignment text || defines

namespace Side

def word (side : Side) (text : String) (defines : Bool) : Side :=
  match side with
  | .before => .before
  | .behind expected => .behind (expected && isPassed text defines)

def listed (side : Side) (text : String) (defines : Bool) : List String :=
  match side with
  | .before => []
  | .behind expected => if expected && !isPassed text defines then [text] else []

def bar : Side → Side
  | .before => .before
  | .behind _ => .behind true

def close : Side → Side
  | .before => .behind true
  | .behind _ => .behind false

end Side

mutual

/-- The side on which a pattern ends. -/
def Pattern.after : Pattern → Side → Side
  | .empty, side => side
  | .word w, side => side.word w.text false
  | .group opener inside rest, side =>
      rest.after (inside.after (side.word opener.text inside.isEmpty)).close

def Alternatives.after : Alternatives → Side → Side
  | .last p, side => p.after side
  | .more p _ rest, side => rest.after (p.after side).bar

end

mutual

/-- The words of a pattern that are read as commands. -/
def Pattern.listed : Pattern → Side → List String
  | .empty, _ => []
  | .word w, side => side.listed w.text false
  | .group opener inside rest, side =>
      let inner := side.word opener.text inside.isEmpty
      side.listed opener.text inside.isEmpty ++
        (inside.listed inner ++ rest.listed (inside.after inner).close)

def Alternatives.listed : Alternatives → Side → List String
  | .last p, side => p.listed side
  | .more p _ rest, side => p.listed side ++ rest.listed (p.after side).bar

end

/-! ## Patterns without parentheses of their own -/

/-- In front of the first closing parenthesis a pattern without parentheses changes nothing. -/
theorem Pattern.of_not_hasParens (p : Pattern) (h : p.hasParens = false) :
    p.after .before = .before ∧ p.listed .before = [] := by
  cases p with
  | empty => exact ⟨rfl, rfl⟩
  | word w => exact ⟨rfl, rfl⟩
  | group opener inside rest => cases h

theorem Alternatives.of_not_hasParens : (alternatives : Alternatives) →
    alternatives.hasParens = false →
      alternatives.after .before = .before ∧ alternatives.listed .before = []
  | .last p, h => p.of_not_hasParens h
  | .more p spaced rest, h => by
      obtain ⟨hp, hrest⟩ := Bool.or_eq_false_iff.mp h
      obtain ⟨hafter, hlisted⟩ := p.of_not_hasParens hp
      obtain ⟨hafter', hlisted'⟩ := rest.of_not_hasParens hrest
      rw [Alternatives.after, Alternatives.listed, hafter, hlisted]
      exact ⟨hafter', hlisted'⟩

mutual

/-- Behind the first closing parenthesis nothing leads back. -/
theorem Pattern.after_behind : (p : Pattern) → (expected : Bool) →
    ∃ expected', p.after (.behind expected) = .behind expected'
  | .empty, expected => ⟨expected, rfl⟩
  | .word w, expected => ⟨_, rfl⟩
  | .group opener inside rest, expected => by
      obtain ⟨inner, hinner⟩ :=
        inside.after_behind (expected && isPassed opener.text inside.isEmpty)
      obtain ⟨expected', hrest⟩ := rest.after_behind false
      refine ⟨expected', ?_⟩
      rw [Pattern.after, Side.word, hinner]
      exact hrest

theorem Alternatives.after_behind : (alternatives : Alternatives) → (expected : Bool) →
    ∃ expected', alternatives.after (.behind expected) = .behind expected'
  | .last p, expected => p.after_behind expected
  | .more p spaced rest, expected => by
      obtain ⟨inner, hinner⟩ := p.after_behind expected
      obtain ⟨expected', hrest⟩ := rest.after_behind true
      refine ⟨expected', ?_⟩
      rw [Alternatives.after, hinner]
      exact hrest

end

theorem Side.exists_close (side : Side) : ∃ expected, side.close = .behind expected := by
  cases side <;> exact ⟨_, rfl⟩

/-- A pattern with parentheses of its own ends behind the first closing one. -/
theorem Pattern.of_hasParens (p : Pattern) (h : p.hasParens = true) (side : Side) :
    ∃ expected, p.after side = .behind expected := by
  cases p with
  | empty => cases h
  | word w => cases h
  | group opener inside rest =>
      obtain ⟨expected, hclose⟩ :=
        (inside.after (side.word opener.text inside.isEmpty)).exists_close
      rw [Pattern.after, hclose]
      exact rest.after_behind expected

theorem Alternatives.of_hasParens : (alternatives : Alternatives) → (side : Side) →
    alternatives.hasParens = true → ∃ expected, alternatives.after side = .behind expected
  | .last p, side, h => p.of_hasParens h side
  | .more p spaced rest, side, h => by
      rw [Alternatives.after]
      cases hp : p.hasParens with
      | true =>
          obtain ⟨expected, hafter⟩ := p.of_hasParens hp side
          rw [hafter]
          exact rest.after_behind true
      | false =>
          refine rest.of_hasParens _ ?_
          rw [Alternatives.hasParens, hp] at h
          exact h

/-- **A command is expected behind the patterns of an arm** exactly if they have no parentheses of
their own. -/
theorem Alternatives.close_after (alternatives : Alternatives) :
    (alternatives.after .before).close = .behind (!alternatives.hasParens) := by
  cases h : alternatives.hasParens with
  | false =>
      rw [(alternatives.of_not_hasParens h).1]
      rfl
  | true =>
      obtain ⟨expected, hafter⟩ := alternatives.of_hasParens .before h
      rw [hafter]
      rfl

/-! ## Words of patterns -/

theorem isGlob_spec {c : Char} (h : isGlob c = true) :
    isBlank c = false ∧ Lexeme.isWordChar c = true ∧ isInert c = true := by
  simpa [isGlob, and_assoc] using h

theorem ne_of_isGlob {c d : Char} (hc : isGlob c = true) (hd : isGlob d = false) : c ≠ d := by
  rintro rfl
  rw [hc] at hd
  cases hd

/-- A text that a pattern may hold is read as one word. -/
theorem isWord_of_isGlob {text : String} (hne : text ≠ "")
    (hglob : text.toList.all isGlob = true) : IsWord text := by
  have hchar : ∀ c ∈ text.toList, isGlob c = true := List.all_eq_true.mp hglob
  refine ⟨hne, List.all_eq_true.mpr fun c hc => (isGlob_spec (hchar c hc)).2.1, fun hmem => ?_⟩
  exact ne_of_isGlob (hchar _ hmem) (d := '\\') (by decide) rfl

/-- A word that means nothing to the tracker. -/
def Ordinary (text : String) : Prop := text = "!" ∨ text ∉ reservedWords ∧ text ∉ wrappers

theorem Ordinary.ne_esac {text : String} (h : Ordinary text) : text ≠ "esac" := by
  rintro rfl
  rcases h with h | ⟨h, -⟩
  · exact absurd h (by decide)
  · exact h (by decide)

/-- Where a command is expected an ordinary word is passed over or called. -/
theorem Ordinary.command_eq {text : String} (h : Ordinary text) {k : Cursor}
    (hk : k.afterWrapper = false) (defines : Bool) :
    k.command text defines = if isPassed text defines then (k, none)
      else ({ k with afterWrapper := false, atCommand := false }, some text) := by
  rcases h with rfl | ⟨hreserved, hwrapper⟩
  · rfl
  · have hne : ∀ t ∈ reservedWords, text ≠ t := by
      rintro t ht rfl
      exact hreserved ht
    have hkeyword : text ∉ keywords := fun hmem =>
      hreserved ((by decide : ∀ t ∈ keywords, t ∈ reservedWords) text hmem)
    rw [Cursor.command, if_neg (hne _ (by decide)), if_neg (hne _ (by decide)),
      if_neg (hne _ (by decide)), if_neg hkeyword, if_neg hwrapper, hk, isPassed,
      beq_eq_false_iff_ne.mpr (hne "!" (by decide))]
    cases isAssignment text <;> cases defines <;> rfl

theorem GlobWord.ordinary (w : GlobWord) : Ordinary w.text := Or.inr w.unreserved

theorem GlobWord.isWord (w : GlobWord) : IsWord w.text := isWord_of_isGlob w.ne_empty w.glob

theorem Opener.getLast?_mem (o : Opener) :
    ∃ c ∈ ['?', '*', '+', '@', '!'], o.text.toList.getLast? = some c := by
  have h := o.operator
  rw [Option.any_eq_true] at h
  obtain ⟨c, hlast, hc⟩ := h
  exact ⟨c, by simpa using hc, hlast⟩

/-- Among the words that mean something only `!` ends in an operator. -/
theorem Opener.ordinary (o : Opener) : Ordinary o.text := by
  have hsole : ∀ t ∈ reservedWords ++ wrappers,
      t = "!" ∨ t.toList.getLast?.any (['?', '*', '+', '@', '!'].contains ·) = false := by decide
  by_cases hmem : o.text ∈ reservedWords ++ wrappers
  · rcases hsole _ hmem with h | h
    · exact Or.inl h
    · rw [o.operator] at h
      cases h
  · rw [List.mem_append, not_or] at hmem
    exact Or.inr hmem

theorem Opener.isWord (o : Opener) : IsWord o.text := by
  refine isWord_of_isGlob ?_ o.glob
  intro h
  obtain ⟨c, -, hlast⟩ := o.getLast?_mem
  rw [h] at hlast
  cases hlast

/-! ## Along a pattern -/

section
variable {cases : List CasePart} {side : Side} {k : Cursor} {text : String}

/-- The cursor on one side of the first closing parenthesis. -/
def AtSide (cases : List CasePart) (side : Side) (k : Cursor) : Prop :=
  match side with
  | .before => ∃ b, Awaits (.pattern :: cases) b k
  | .behind expected => Awaits (.body :: cases) expected k ∧ k.afterWrapper = false

/-- The cursor behind the operator of some alternatives. -/
structure BehindOpener (cases : List CasePart) (side : Side) (k : Cursor) : Prop where
  atSide : AtSide cases side k
  last_eq : ∃ text defines, k.last = some (.word text defines) ∧ text.toList.getLast? ≠ some '='

theorem AtSide.word (h : AtSide cases side k) (ht : Ordinary text) (defines : Bool) :
    AtSide cases (side.word text defines) (k.word text defines).1 ∧
      (k.word text defines).2.toList = side.listed text defines := by
  cases side with
  | before =>
      obtain ⟨b, hk⟩ := h
      have hread := hk.toWithin.awaits_reading text defines
      rw [word_eq, hk.afterRedirection_eq, place_pattern hread.toWithin, if_neg ht.ne_esac]
      exact ⟨⟨b, hread⟩, rfl⟩
  | behind expected =>
      obtain ⟨hk, hwrapper⟩ := h
      have hread := hk.toWithin.awaits_reading text defines
      cases expected with
      | false =>
          rw [hk.argument_eq rfl]
          exact ⟨⟨hread.with_atCommand false, hwrapper⟩, rfl⟩
      | true =>
          have hwrapper' : (reading k text defines).afterWrapper = false := hwrapper
          rw [hk.word_eq rfl, ht.command_eq hwrapper', Side.word, Side.listed]
          cases isPassed text defines with
          | true => exact ⟨⟨hread, hwrapper⟩, rfl⟩
          | false =>
              have hcalled := hread.toWithin
              exact ⟨⟨⟨⟨hcalled.cases_eq, rfl, hcalled.inArray_eq⟩, rfl, rfl, rfl⟩, rfl⟩, rfl⟩

theorem AtSide.bar (h : AtSide cases side k) : AtSide cases side.bar (k.mark .bar) := by
  cases side with
  | before =>
      obtain ⟨b, hk⟩ := h
      exact ⟨b, (hk.patternMark (by simp)).awaits⟩
  | behind expected =>
      obtain ⟨hk, hwrapper⟩ := h
      have hi : Within (.body :: cases) true (k.interpret .bar) := by
        rw [hk.interpret_eq rfl]
        exact ⟨hk.cases_eq, rfl, hk.inArray_eq⟩
      exact ⟨(hk.of_interpret hi (by simp) (by simp)).awaits, by simp [Cursor.mark]⟩

/-- A closing parenthesis leads into the body of the arm, whichever one it is. -/
theorem AtSide.closeParen (h : AtSide cases side k) {expected : Bool}
    (hside : side.close = .behind expected) :
    Stands (.body :: cases) expected (k.mark .closeParen) := by
  cases side with
  | before =>
      cases hside
      obtain ⟨b, hk⟩ := h
      exact hk.patternEnd
  | behind b =>
      cases hside
      exact h.1.closer rfl (by simp)

theorem AtSide.close (h : AtSide cases side k) : AtSide cases side.close (k.mark .closeParen) := by
  obtain ⟨expected, hside⟩ := side.exists_close
  rw [hside]
  exact ⟨(h.closeParen hside).awaits, by simp [Cursor.mark]⟩

/-- Behind an operator a parenthesis opens neither an array nor a substitution. -/
theorem BehindOpener.openParen (h : BehindOpener cases side k) :
    AtSide cases side (k.mark .openParen) := by
  obtain ⟨text, defines, hlast, hequals⟩ := h.last_eq
  have hside := h.atSide
  cases side with
  | before =>
      obtain ⟨b, hk⟩ := hside
      exact ⟨b, (hk.patternMark (by simp)).awaits⟩
  | behind expected =>
      obtain ⟨hk, hwrapper⟩ := hside
      have hno : k.followsEquals = false := by simpa [Cursor.followsEquals, hlast] using hequals
      have hnone : k.followsRedirection = false := by simp [Cursor.followsRedirection, hlast]
      have hi : Within (.body :: cases) expected (k.interpret .openParen) := by
        rw [hk.interpret_eq rfl, Cursor.markInCode, hno, hnone, hlast]
        exact hk.toWithin
      exact ⟨(hk.of_interpret hi (by simp) (by simp)).awaits, by simp [Cursor.mark]⟩

/-! ## What is tracked -/

theorem tracks_patternBar : Tracks Anything (AtSide cases side) "|".toList
    (AtSide cases side.bar) [] :=
  tracks_lone .bar (by decide) (by decide) (fun _ => rfl) (by simp) fun _ hk => ⟨hk.bar, rfl⟩

theorem tracks_patternClose : Tracks Anything (AtSide cases side) ")".toList
    (AtSide cases side.close) [] :=
  tracks_lone .closeParen (by decide) (by decide) (fun _ => rfl) (by simp) fun _ hk =>
    ⟨hk.close, rfl⟩

theorem tracks_patternOpen : Tracks Anything (BehindOpener cases side) "(".toList
    (AtSide cases side) [] :=
  tracks_lone .openParen (by decide) (by decide) (fun _ => rfl) (by simp) fun _ hk =>
    ⟨hk.openParen, rfl⟩

theorem GlobWord.tracks (w : GlobWord) :
    Tracks EndsWord (AtSide cases side) w.text.toList (AtSide cases (side.word w.text false))
      (side.listed w.text false) :=
  tracks_wordDefining false w.isWord fun _ hk => hk.word w.ordinary false

theorem Opener.tracks (o : Opener) (defines : Bool) :
    Tracks (fun rest => EndsRun rest ∧ Lexeme.startsWithParens (firstLine rest) = defines)
      (AtSide cases side) o.text.toList (BehindOpener cases (side.word o.text defines))
      (side.listed o.text defines) := by
  refine tracks_wordDefining defines o.isWord fun k hk => ?_
  obtain ⟨hside, hcalls⟩ := hk.word o.ordinary defines
  refine ⟨⟨hside, o.text, defines, (word_keeps k o.text defines).2, ?_⟩, hcalls⟩
  obtain ⟨c, hc, hlast⟩ := o.getLast?_mem
  rw [hlast]
  rintro ⟨⟩
  revert hc
  decide

/-! ## What may follow -/

theorem endsWord_bar (spaced : Bool) (s : List Char) :
    EndsWord (blankIf spaced ++ ("|".toList ++ s)) := by
  cases spaced with
  | true => exact endsWord_blank (c := '|') (by decide) (by decide) s
  | false => exact endsWord_mark (c := '|') (by decide) (by decide) (by decide) s

/-- A pattern is empty or starts with a character that a word may hold. -/
theorem Pattern.eq_empty_or (p : Pattern) :
    p = .empty ∨ ∃ c s, p.text = c :: s ∧ isGlob c = true := by
  have hword : ∀ text : String, text ≠ "" → text.toList.all isGlob = true → ∀ rest,
      ∃ c s, text.toList ++ rest = c :: s ∧ isGlob c = true := by
    intro text hne hglob rest
    obtain ⟨c, s, hs⟩ := List.exists_cons_of_ne_nil (l := text.toList) (by simpa using hne)
    refine ⟨c, s ++ rest, by rw [hs, List.cons_append], ?_⟩
    exact List.all_eq_true.mp hglob c (by simp [hs])
  cases p with
  | empty => exact Or.inl rfl
  | word w =>
      obtain ⟨c, s, hs, hc⟩ := hword w.text w.ne_empty w.glob []
      rw [List.append_nil] at hs
      exact Or.inr ⟨c, s, hs, hc⟩
  | group opener inside rest => exact Or.inr (hword _ opener.isWord.ne_empty opener.glob _)

/-- Only what stands between two parentheses decides whether they are taken for the parentheses of
a definition. -/
theorem Alternatives.startsWithParens (inside : Alternatives) (rest : List Char) :
    Lexeme.startsWithParens (firstLine ("(".toList ++ (inside.text ++ (")".toList ++ rest)))) =
      inside.isEmpty := by
  -- The character behind the parenthesis, blanks aside.
  have hhead : ∀ (c : Char) (s : List Char), isBlank c = false →
      Lexeme.startsWithParens (firstLine ('(' :: c :: s)) = (c == ')') ∧
        Lexeme.startsWithParens (firstLine ('(' :: ' ' :: c :: s)) = (c == ')') := by
    intro c s hc
    obtain ⟨hn, hr⟩ := ne_lineEnd_of_isBlank hc
    have hline : firstLine (c :: s) = c :: firstLine s :=
      firstLine_cons hn fun e => absurd e hr
    have hopen : ∀ t, firstLine ('(' :: t) = '(' :: firstLine t := fun t =>
      firstLine_cons (by decide) (by simp)
    have hblank : ∀ t, firstLine (' ' :: t) = ' ' :: firstLine t := fun t =>
      firstLine_cons (by decide) (by simp)
    have htrim : trimStart (c :: firstLine s) = c :: firstLine s := by simp [trimStart, hc]
    have htrim' : trimStart (' ' :: c :: firstLine s) = c :: firstLine s := htrim
    have hparen : ∀ t, trimStart ('(' :: t) = '(' :: t := fun t => rfl
    constructor
    · rw [hopen, hline, Lexeme.startsWithParens, hparen]
      simp [htrim]
    · rw [hopen, hblank, hline, Lexeme.startsWithParens, hparen]
      simp [htrim']
  have hpattern : ∀ (p : Pattern) (t : List Char), p ≠ .empty →
      Lexeme.startsWithParens (firstLine ("(".toList ++ (p.text ++ t))) = false := by
    intro p t hp
    obtain ⟨c, s, hs, hc⟩ := p.eq_empty_or.resolve_left hp
    rw [hs]
    refine (hhead c (s ++ t) (isGlob_spec hc).1).1.trans ?_
    exact beq_eq_false_iff_ne.mpr (ne_of_isGlob hc (by decide))
  cases inside with
  | last p =>
      cases p with
      | empty => exact (hhead ')' rest (by decide)).1
      | word w => exact hpattern (.word w) _ (by simp)
      | group opener inside more => exact hpattern (.group opener inside more) _ (by simp)
  | more p spaced more =>
      rw [Alternatives.text, List.append_assoc]
      by_cases hp : p = .empty
      · subst hp
        cases spaced with
        | true => exact (hhead '|' _ (by decide)).2
        | false => exact (hhead '|' _ (by decide)).1
      · exact hpattern p _ hp

/-! ## Patterns -/

mutual

/-- One pattern, on either side of the first closing parenthesis. -/
theorem Pattern.tracks : (p : Pattern) → {side : Side} →
    Tracks EndsWord (AtSide cases side) p.text (AtSide cases (p.after side)) (p.listed side)
  | .empty, _ => Tracks.nil
  | .word w, _ => w.tracks
  | .group opener inside rest, side => by
      refine (opener.tracks inside.isEmpty).append ?_ fun s _ => ?_
      · refine tracks_patternOpen.before ?_
        refine inside.tracks.append ?_ fun s _ => ?_
        · exact tracks_patternClose.before rest.tracks
        · rw [List.append_assoc]
          exact endsWord_closeParen _
      · refine ⟨endsRun_cons (c := '(') (by decide) _, ?_⟩
        simp only [List.append_assoc]
        exact inside.startsWithParens _

/-- **The patterns of an arm.** -/
theorem Alternatives.tracks : (alternatives : Alternatives) → {side : Side} →
    Tracks EndsWord (AtSide cases side) alternatives.text (AtSide cases (alternatives.after side))
      (alternatives.listed side)
  | .last p, _ => p.tracks
  | .more p spaced rest, side => by
      refine p.tracks.append ?_ fun s _ => ?_
      · refine (tracks_blankIf spaced).before ?_
        refine tracks_patternBar.before ?_
        exact (tracks_blankIf spaced).before rest.tracks
      · rw [List.append_assoc, List.append_assoc]
        exact endsWord_bar spaced _

end

end

/-! ## What shows -/

section
variable {last : Option Char}

theorem shows_glob {s : List Char} (h : s.all isGlob = true) : Shows [] last s s [] :=
  Shows.inert rfl fun c hc => (isGlob_spec (List.all_eq_true.mp h c hc)).2.2

mutual

/-- In plain code the parentheses of a pattern open and close no context. -/
theorem Pattern.shows : (p : Pattern) → {last : Option Char} → Shows [] last p.text p.text []
  | .empty, _ => Shows.nil
  | .word w, _ => shows_glob w.glob
  | .group opener inside rest, _ => by
      refine (shows_glob opener.glob).append ?_
      refine (Shows.openParen rfl).append ?_
      exact inside.shows.append ((Shows.closeParen rfl).append rest.shows)

theorem Alternatives.shows : (alternatives : Alternatives) → {last : Option Char} →
    Shows [] last alternatives.text alternatives.text []
  | .last p, _ => p.shows
  | .more p spaced rest, _ => by
      refine p.shows.append ?_
      refine (shows_blankIf spaced).append ?_
      refine (shows_marks (s := ['|']) rfl (by decide)).append ?_
      exact (shows_blankIf spaced).append rest.shows

end

end

end ShellIndex.Program
