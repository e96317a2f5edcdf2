import ShellIndex.Proofs.Source.Resume
import ShellIndex.Proofs.Text.Characters

set_option autoImplicit false

/-! # What a piece of text shows

A piece of text **shows** a view (`Shows`) when a reader that stands before the piece gives the
lines of the view followed by whatever it gives behind the piece. Line feeds belong to the piece
and to its view alike. Pieces are put together by `Shows.append`, so that the view of a text
follows from the views of its parts, whatever stands around them.

The pieces of this file are single characters and the marks that open and close a context.
-/

namespace ShellIndex.Source

open Text

/-- The view of a masked character; a line feed ends the line of the view too. -/
def maskInLine (c : Char) : List Char := if c = '\n' then ['\n'] else maskChar c

/-- The character that stands before the next one in its line, after the text `s`. -/
def lastAfter (last : Option Char) (s : List Char) : Option Char :=
  s.foldl (fun _ c => if c = '\n' then none else some c) last

/-- The lines of a view of which `shown` (nearest first) is the start, without comments. -/
def Course.plain (shown view : List Char) (stop : Open) : Course :=
  ⟨(linesAfter shown view).map fun code => (code, none), stop⟩

/-- The reader stands in `contexts`, behind the character `last` of its line, and nothing is
decided about the next character. -/
structure Reader.At (r : Reader) (contexts : List Context) (last : Option Char) : Prop where
  contexts_eq : r.contexts = contexts
  owed_eq : r.owed = .nothing
  heredocs_eq : r.heredocs = []
  last_eq : r.before.head? = last
  code_eq_nil : r.code = [] ↔ r.before = []
  no_return : '\r' ∉ r.code

/-- Between `contexts` and `contexts'` the text `s` shows `view`, whatever follows it. -/
def Shows (contexts : List Context) (last : Option Char) (s view : List Char)
    (contexts' : List Context) : Prop :=
  ∀ (r : Reader) (rest more : List Char) (stop : Open), r.At contexts last →
    (∀ r' : Reader, r'.At contexts' (lastAfter last s) →
      r'.resume rest = Course.plain r'.code more stop) →
    r.resume (s ++ rest) = Course.plain r.code (view ++ more) stop

/-! ## Views of lines -/

theorem lastAfter_append (last : Option Char) (s t : List Char) :
    lastAfter last (s ++ t) = lastAfter (lastAfter last s) t := by
  simp [lastAfter]

theorem maskChar_ne_nil (c : Char) : maskChar c ≠ [] := by
  have hpos := Char.utf8Size_pos c
  simp only [maskChar, ne_eq, List.replicate_eq_nil_iff]
  omega

theorem mem_maskChar {c d : Char} (h : d ∈ maskChar c) : d = ' ' := by
  simp only [maskChar, List.mem_replicate] at h
  exact h.2

theorem mem_mask {s : List Char} {d : Char} (h : d ∈ mask s) : d = ' ' := by
  obtain ⟨c, -, hc⟩ := List.mem_flatMap.mp h
  exact mem_maskChar hc

theorem Course.plain_cons (shown : List Char) {c : Char} (hc : c ≠ '\n') (view : List Char)
    (stop : Open) : Course.plain shown (c :: view) stop = Course.plain (c :: shown) view stop := by
  simp [Course.plain, linesAfter, hc]

theorem Course.plain_mask (shown : List Char) (c : Char) (view : List Char) (stop : Open) :
    Course.plain shown (maskChar c ++ view) stop =
      Course.plain (maskChar c ++ shown) view stop := by
  have key : ∀ n (shown : List Char),
      linesAfter shown (List.replicate n ' ' ++ view) =
        linesAfter (List.replicate n ' ' ++ shown) view := by
    intro n
    induction n with
    | zero => intro shown; rfl
    | succ n ih =>
        intro shown
        rw [List.replicate_succ, List.cons_append, linesAfter, if_neg (by decide), ih,
          ← List.replicate_succ, List.replicate_succ', List.append_assoc]
        rfl
  simp only [Course.plain, maskChar, key]

theorem Course.plain_lineFeed {shown : List Char} (h : '\r' ∉ shown) (view : List Char)
    (stop : Open) :
    Course.plain shown ('\n' :: view) stop =
      (Course.plain [] view stop).cons (shown.reverse, none) := by
  simp [Course.plain, Course.cons, linesAfter, closeLine_of_no_return h]

/-! ## A reader that stands somewhere -/

namespace Reader

variable {r : Reader} {contexts contexts' : List Context} {last : Option Char}

theorem at_start (contexts : List Context) : (start contexts).At contexts none :=
  ⟨rfl, rfl, rfl, rfl, by simp [start], by simp [start]⟩

/-- Behind a character that stays visible. -/
theorem At.keep (h : r.At contexts last) {c : Char} (hc : c ≠ '\r')
    (contexts' : List Context) :
    ({ r.keep c with contexts := contexts' } : Reader).At contexts' (some c) :=
  ⟨rfl, rfl, h.heredocs_eq, rfl, by simp [Reader.keep], by
    simpa [Reader.keep, Ne.symm hc] using h.no_return⟩

/-- Behind a character that is masked. -/
theorem At.hide (h : r.At contexts last) (c : Char) : (r.hide c).At contexts (some c) := by
  refine ⟨h.contexts_eq, rfl, h.heredocs_eq, rfl, ?_, ?_⟩
  · simp [Reader.hide, maskChar_ne_nil]
  · simp only [Reader.hide, List.mem_append, not_or]
    exact ⟨fun hm => absurd (mem_maskChar hm) (by decide), h.no_return⟩

/-- A character about which nothing is decided is one free step. -/
theorem At.resume_cons (h : r.At contexts last) {c : Char} {rest : List Char} (hn : c ≠ '\n')
    (hr : c = '\r' → rest.head? ≠ some '\n')
    (hcode : readsCode contexts = true → c ≠ '#' ∧ c ≠ '<') :
    r.resume (c :: rest) = (r.stepFree c rest).resume rest := by
  have hcontexts := h.contexts_eq
  have ho : r.opensComment c = false := by
    cases hread : readsCode contexts with
    | false => simp [opensComment, hcontexts, hread]
    | true => simp [opensComment, (hcode hread).1]
  have hlt : c = '<' → r.owed = .nothing → readsCode r.contexts = false := by
    intro hlt _
    cases hread : readsCode contexts with
    | false => rw [hcontexts, hread]
    | true => exact absurd hlt (hcode hread).2
  rw [r.resume_cons hn hr ho hlt]
  simp [step, h.owed_eq]

/-- In code a character is read as code. -/
theorem At.stepFree_code (h : r.At contexts last) (hcode : readsCode contexts = true) (c : Char)
    (rest : List Char) : r.stepFree c rest = r.stepCode c rest := by
  have hcontexts := h.contexts_eq
  unfold stepFree
  rw [hcontexts]
  rcases contexts with _ | ⟨top, outer⟩
  · rfl
  · cases top <;> first | rfl | simp [readsCode] at hcode

end Reader

/-! ## Putting pieces together -/

section
variable {contexts contexts₁ contexts₂ outer : List Context} {last : Option Char}

theorem Shows.nil : Shows contexts last [] [] contexts := by
  intro r rest more stop hr hk
  exact hk r hr

theorem Shows.append {s s' view view' : List Char} (h : Shows contexts last s view contexts₁)
    (h' : Shows contexts₁ (lastAfter last s) s' view' contexts₂) :
    Shows contexts last (s ++ s') (view ++ view') contexts₂ := by
  intro r rest more stop hr hk
  rw [List.append_assoc, List.append_assoc]
  refine h r _ _ stop hr fun r₁ hr₁ => ?_
  refine h' r₁ _ _ stop hr₁ fun r₂ hr₂ => ?_
  rw [← lastAfter_append] at hr₂
  exact hk r₂ hr₂

/-- A text that starts with nothing open and leads back to nothing open shows its view. -/
theorem Shows.map_view_scan {s view : List Char} (h : Shows [] none s view []) :
    (scan (String.ofList s)).map Line.view = (lines view).map (fun code => (code, none)) ∧
      Open.nothing.after (lines s) = Open.nothing := by
  have key : (Reader.start []).resume s = Course.plain [] view Open.nothing := by
    have hresume := h (Reader.start []) [] [] Open.nothing (Reader.at_start []) ?_
    · simpa [Reader.start] using hresume
    · -- Behind the whole text the reader only has the line in which it stands.
      intro r hr
      rw [Reader.resume_nil, hr.contexts_eq, hr.heredocs_eq]
      simp only [Course.plain, linesAfter, List.isEmpty_iff, hr.code_eq_nil, Open.nothing]
      split <;> simp
  refine ⟨?_, ?_⟩
  · rw [Source.map_view_scan, String.toList_ofList, key]
    rfl
  · have hafter := after_lines (String.ofList s)
    rw [String.toList_ofList, key] at hafter
    exact hafter

/-- The code of its lines is that of its view, and no line has a comment. -/
theorem Shows.map_code_scan {s view : List Char} (h : Shows [] none s view []) :
    (scan (String.ofList s)).map Line.code = lines view ∧
      ∀ l ∈ scan (String.ofList s), l.comment = none := by
  have hview := h.map_view_scan.1
  refine ⟨?_, fun l hl => ?_⟩
  · have hcode : (scan (String.ofList s)).map Line.code =
        ((scan (String.ofList s)).map Line.view).map Prod.fst := by
      rw [List.map_map]
      rfl
    rw [hcode, hview, List.map_map]
    exact List.map_id _
  · have hmem : l.view ∈ (scan (String.ofList s)).map Line.view := List.mem_map_of_mem hl
    rw [hview, List.mem_map] at hmem
    obtain ⟨code, _, e⟩ := hmem
    exact (congrArg Prod.snd e).symm

/-! ## Single characters -/

/-- A line feed starts a new line in the same contexts. -/
theorem Shows.lineFeed : Shows contexts last ['\n'] ['\n'] contexts := by
  intro r rest more stop hr hk
  rw [List.singleton_append, List.singleton_append, r.resume_lineFeed hr.heredocs_eq,
    Course.plain_lineFeed hr.no_return, hr.contexts_eq, hk _ (Reader.at_start contexts)]
  rfl

/-- A character whose free step keeps it visible. -/
theorem Shows.keep {c : Char} (hn : c ≠ '\n') (hr : c ≠ '\r')
    (hcode : readsCode contexts = true → c ≠ '#' ∧ c ≠ '<')
    (hstep : ∀ (r : Reader) (rest : List Char), r.At contexts last →
      r.stepFree c rest = { r.keep c with contexts := contexts₁ }) :
    Shows contexts last [c] [c] contexts₁ := by
  intro r rest more stop hat hk
  rw [List.singleton_append, List.singleton_append, Course.plain_cons _ hn,
    hat.resume_cons hn (fun e => absurd e hr) hcode, hstep r rest hat]
  refine hk _ ?_
  simpa [lastAfter, hn] using hat.keep hr contexts₁

/-- A character that is masked, when it is known what follows. -/
theorem resume_hide {r : Reader} {c : Char} {rest more : List Char} {stop : Open}
    (hat : r.At contexts last) (hcode : readsCode contexts = false)
    (hr : c = '\r' → rest.head? ≠ some '\n')
    (hstep : c ≠ '\n' → r.stepFree c rest = r.hide c)
    (hk : ∀ r' : Reader, r'.At contexts (lastAfter last [c]) →
      r'.resume rest = Course.plain r'.code more stop) :
    r.resume (c :: rest) = Course.plain r.code (maskInLine c ++ more) stop := by
  by_cases hn : c = '\n'
  · subst hn
    exact Shows.lineFeed r rest more stop hat hk
  · rw [maskInLine, if_neg hn, Course.plain_mask,
      hat.resume_cons hn hr (fun e => by simp [hcode] at e), hstep hn]
    refine hk _ ?_
    simpa [lastAfter, hn] using hat.hide c

/-- A character whose free step masks it, whatever follows. -/
theorem Shows.hide {c : Char} (hcode : readsCode contexts = false) (hr : c ≠ '\r')
    (hstep : ∀ (r : Reader) (rest : List Char), r.At contexts last → c ≠ '\n' →
      r.stepFree c rest = r.hide c) :
    Shows contexts last [c] (maskInLine c) contexts := by
  intro r rest more stop hat hk
  exact resume_hide hat hcode (fun e => absurd e hr) (hstep r rest hat) hk

/-! ## Marks -/

/-- The contexts after a character of code that is no quote. -/
def parens (contexts : List Context) (c : Char) : List Context :=
  if c = '(' then openParen contexts else if c = ')' then closeParen contexts else contexts

/-- Whether a character of code neither quotes nor escapes, and starts neither a comment nor a
here-document. -/
def isPlainCode (c : Char) : Bool :=
  c != '\'' && c != '"' && c != '\\' && c != '`' && c != '#' && c != '<'

theorem ne_of_isPlainCode {c : Char} (h : isPlainCode c = true) :
    (c ≠ '\'' ∧ c ≠ '"' ∧ c ≠ '\\' ∧ c ≠ '`') ∧ c ≠ '#' ∧ c ≠ '<' := by
  simp only [isPlainCode, Bool.and_eq_true, bne_iff_ne, ne_eq] at h
  obtain ⟨⟨⟨⟨⟨h₁, h₂⟩, h₃⟩, h₄⟩, h₅⟩, h₆⟩ := h
  exact ⟨⟨h₁, h₂, h₃, h₄⟩, h₅, h₆⟩

theorem Shows.code {c : Char} (hcode : readsCode contexts = true) (hc : isPlainCode c = true)
    (hr : c ≠ '\r') : Shows contexts last [c] [c] (parens contexts c) := by
  obtain ⟨⟨hc₁, hc₂, hc₃, hc₄⟩, hc₅, hc₆⟩ := ne_of_isPlainCode hc
  by_cases hn : c = '\n'
  · subst hn
    exact Shows.lineFeed
  refine Shows.keep hn hr (fun _ => ⟨hc₅, hc₆⟩) fun r rest hat => ?_
  rw [hat.stepFree_code hcode, ← hat.contexts_eq]
  by_cases hopen : c = '('
  · subst hopen
    rfl
  by_cases hclose : c = ')'
  · subst hclose
    rfl
  simp [Reader.stepCode, parens, hopen, hclose, Reader.keep]

/-- Whether a character of code leaves the contexts as they are. -/
def isInert (c : Char) : Bool := isPlainCode c && c != '(' && c != ')' && c != '\r'

theorem isInert_of_isAlphanumeric {c : Char} (h : isAlphanumeric c = true) :
    isInert c = true := by
  have hne := fun d => ne_of_isAlphanumeric h (d := d)
  simp only [cutMarks, List.mem_cons, List.not_mem_nil, or_false, forall_eq_or_imp,
    forall_eq] at hne
  simp [isInert, isPlainCode, hne]

theorem Shows.inert {s : List Char} (hcode : readsCode contexts = true)
    (hs : ∀ c ∈ s, isInert c = true) : Shows contexts last s s contexts := by
  induction s generalizing last with
  | nil => exact Shows.nil
  | cons c s ih =>
      have hc := hs c (by simp)
      simp only [isInert, Bool.and_eq_true, bne_iff_ne, ne_eq] at hc
      obtain ⟨⟨⟨hplain, hopen⟩, hclose⟩, hr⟩ := hc
      have hfirst : Shows contexts last [c] [c] (parens contexts c) := Shows.code hcode hplain hr
      have hparens : parens contexts c = contexts := by
        rw [parens, if_neg hopen, if_neg hclose]
      rw [hparens] at hfirst
      exact hfirst.append (ih fun d hd => hs d (by simp [hd]))

/-- A `<` that no other follows announces no here-document. -/
theorem Shows.lessThan {c : Char} {s view : List Char} (hcode : readsCode contexts = true)
    (hc : c ≠ '<') (h : Shows contexts (some '<') (c :: s) view contexts₁) :
    Shows contexts last ('<' :: c :: s) ('<' :: view) contexts₁ := by
  intro r rest more stop hat hk
  have hkeep : ∀ t : List Char, t.head? ≠ some '<' → r.step '<' t = r.keep '<' := by
    intro t ht
    have hopens : r.opensHeredoc t = false := by
      unfold Reader.opensHeredoc
      split
      · exact absurd rfl ht
      · rfl
    rw [Reader.step, hat.owed_eq]
    dsimp only
    rw [hat.stepFree_code hcode, Reader.stepCode, hopens]
    rfl
  have hfollows : (c :: (s ++ rest)).head? ≠ some '<' := fun e => hc (Option.some.inj e)
  have hresume : r.resume ('<' :: c :: (s ++ rest)) =
      (r.step '<' (c :: (s ++ rest))).resume (c :: (s ++ rest)) := by
    refine r.resume_step (by decide) (by simp) (by simp [Reader.opensComment]) fun t ht => ?_
    rw [hkeep t fun e => hfollows ((ht '<' (by simp)).mp e), hkeep _ hfollows]
  have hkept : r.keep '<' = { r.keep '<' with contexts } := by
    rw [← hat.contexts_eq]
    rfl
  simp only [List.cons_append]
  rw [hresume, hkeep _ hfollows, Course.plain_cons _ (by decide), hkept]
  exact h _ rest more stop (hat.keep (by decide) contexts) hk

theorem readsCode_openParen (hcode : readsCode contexts = true) :
    readsCode (Source.openParen contexts) = true := by
  rcases contexts with _ | ⟨top, outer⟩
  · rfl
  · cases top <;> first | rfl | exact hcode

theorem Shows.openParen (hcode : readsCode contexts = true) :
    Shows contexts last ['('] ['('] (Source.openParen contexts) :=
  Shows.code hcode (by decide) (by decide)

theorem Shows.closeParen (hcode : readsCode contexts = true) :
    Shows contexts last [')'] [')'] (Source.closeParen contexts) :=
  Shows.code hcode (by decide) (by decide)

theorem Shows.openDouble (hcode : readsCode contexts = true) :
    Shows contexts last ['"'] ['"'] (.double :: contexts) := by
  refine Shows.keep (by decide) (by decide) (fun _ => by decide) fun r rest hat => ?_
  rw [hat.stepFree_code hcode, ← hat.contexts_eq]
  rfl

theorem Shows.closeDouble : Shows (.double :: outer) last ['"'] ['"'] outer := by
  refine Shows.keep (by decide) (by decide) (fun _ => by decide) fun r rest hat => ?_
  rw [Reader.stepFree, hat.contexts_eq]
  rfl

/-- Inside double quotes `$(` starts a substitution. -/
theorem Shows.openSubstitution :
    Shows (.double :: outer) last ['$', '('] ['$', '('] (.substitution 0 :: .double :: outer) := by
  intro r rest more stop hat hk
  -- The dollar sign decides about the parenthesis too, which is then taken as it is.
  have hstep : r.stepFree '$' ('(' :: rest) =
      { r.keep '$' with contexts := .substitution 0 :: .double :: outer, owed := .verbatim 0 } := by
    rw [Reader.stepFree, hat.contexts_eq]
    show r.stepDouble outer '$' ('(' :: rest) = _
    simp [Reader.stepDouble, hat.contexts_eq]
  simp only [List.cons_append, List.nil_append]
  rw [hat.resume_cons (by decide) (by simp) (fun _ => by decide), hstep,
    Reader.resume_cons _ (by decide) (by simp) rfl (by simp), Course.plain_cons _ (by decide),
    Course.plain_cons _ (by decide)]
  refine hk _ ⟨rfl, rfl, hat.heredocs_eq, rfl, by simp [Reader.step, Reader.keep], ?_⟩
  simpa [Reader.step, Reader.keep] using hat.no_return

theorem Shows.openBackquote :
    Shows (.double :: outer) last ['`'] ['`'] (.backquote :: .double :: outer) := by
  refine Shows.keep (by decide) (by decide) (fun _ => by decide) fun r rest hat => ?_
  rw [Reader.stepFree, hat.contexts_eq]
  show r.stepDouble outer '`' rest = _
  rw [Reader.stepDouble, hat.contexts_eq]

theorem Shows.closeBackquote : Shows (.backquote :: outer) last ['`'] ['`'] outer := by
  refine Shows.keep (by decide) (by decide) (fun _ => by decide) fun r rest hat => ?_
  rw [hat.stepFree_code rfl]
  show ({ r.keep '`' with contexts := Source.closeBackquote r.contexts } : Reader) = _
  rw [hat.contexts_eq]
  rfl

/-- Inside double quotes a character stands for itself, unless it is a dollar sign before a
parenthesis. -/
theorem resume_literal {r : Reader} {c : Char} {rest more : List Char} {stop : Open}
    (hat : r.At (.double :: outer) last) (hc : c ≠ '"' ∧ c ≠ '\\' ∧ c ≠ '`')
    (hr : c = '\r' → rest.head? ≠ some '\n') (hd : c = '$' → rest.head? ≠ some '(')
    (hk : ∀ r' : Reader, r'.At (.double :: outer) (lastAfter last [c]) →
      r'.resume rest = Course.plain r'.code more stop) :
    r.resume (c :: rest) = Course.plain r.code (maskInLine c ++ more) stop := by
  refine resume_hide hat rfl hr (fun _ => ?_) hk
  obtain ⟨hc₁, hc₂, hc₃⟩ := hc
  rw [Reader.stepFree, hat.contexts_eq]
  show r.stepDouble outer c rest = _
  by_cases hdollar : c = '$'
  · subst hdollar
    simp [Reader.stepDouble, hd rfl]
  · simp [Reader.stepDouble]

theorem Shows.literal {c : Char} {t view : List Char} (ht : t ≠ [])
    (hc : c ≠ '"' ∧ c ≠ '\\' ∧ c ≠ '`') (hr : c ≠ '\r') (hd : c = '$' → t.head? ≠ some '(')
    (h : Shows (.double :: outer) (lastAfter last [c]) t view contexts) :
    Shows (.double :: outer) last (c :: t) (maskInLine c ++ view) contexts := by
  intro r rest more stop hat hk
  rw [List.cons_append, List.append_assoc]
  have hd' : c = '$' → (t ++ rest).head? ≠ some '(' := by
    intro e
    obtain ⟨d, t, rfl⟩ := List.exists_cons_of_ne_nil ht
    exact hd e
  refine resume_literal hat hc (fun e => absurd e hr) hd' fun r' hat' => ?_
  exact h r' rest more stop hat' fun r'' hat'' => hk r'' hat''

end

end ShellIndex.Source
