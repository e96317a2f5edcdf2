import ShellIndex.Proofs.Call.ProgramView
import ShellIndex.Proofs.Source.Quoting

set_option autoImplicit false

/-! # Quoted text with escapes

Between double quotes and in `$'…'` a backslash takes the next character with it, which may be the
quote itself or a line feed. Whatever is escaped, such a text shows its line ends and nothing else
(`EscapedText.shows`).
-/

namespace ShellIndex.Program

open Text Source

/-- The quotes in which a backslash escapes the next character. -/
inductive EscapingQuote where
  /-- `"…"` -/
  | double
  /-- `$'…'` -/
  | ansi
deriving DecidableEq, Repr

namespace EscapingQuote
variable (q : EscapingQuote)

def context : EscapingQuote → Context
  | .double => .double
  | .ansi => .ansi

/-- Whether a character other than the backslash stands for itself before `rest`. Between double
quotes a dollar sign before a parenthesis would start a substitution. -/
def keeps (c : Char) (rest : List Char) : Bool :=
  match q with
  | .double => c != '"' && c != '`' && (c != '$' || rest.head? != some '(')
  | .ansi => c != '\''

/-- Whether a text may stand between the quotes. -/
def fits : List Char → Bool
  | [] => true
  | [c] => c != '\\' && q.keeps c []
  | c :: d :: s => if c = '\\' then fits s else q.keeps c (d :: s) && fits (d :: s)

end EscapingQuote

/-- A text with escapes. It may hold line feeds. -/
structure EscapedText (q : EscapingQuote) where
  text : List Char
  fits : q.fits text = true

section
variable {q : EscapingQuote} {contexts outer : List Context} {last : Option Char}
variable {r : Reader} {c : Char} {s rest more : List Char} {stop : Open}

theorem EscapingQuote.readsCode_context (q : EscapingQuote) (outer : List Context) :
    readsCode (q.context :: outer) = false := by
  cases q <;> rfl

/-! ## One character -/

theorem EscapingQuote.stepFree_backslash (hat : r.At (q.context :: outer) last)
    (rest : List Char) : r.stepFree '\\' rest = { r.hide '\\' with owed := .escaped } := by
  rw [Reader.stepFree, hat.contexts_eq]
  cases q <;> rfl

theorem EscapingQuote.stepFree_of_keeps (hat : r.At (q.context :: outer) last) (hc : c ≠ '\\')
    (hkeeps : q.keeps c s = true) (hrest : rest.head? ≠ some '(') :
    r.stepFree c (s ++ rest) = r.hide c := by
  rw [Reader.stepFree, hat.contexts_eq]
  cases q with
  | ansi =>
      have hquote : c ≠ '\'' := by simpa [EscapingQuote.keeps] using hkeeps
      show r.stepAnsi outer c = r.hide c
      simp [Reader.stepAnsi]
  | double =>
      simp only [EscapingQuote.keeps, Bool.and_eq_true, Bool.or_eq_true, bne_iff_ne, ne_eq]
        at hkeeps
      obtain ⟨⟨hquote, hbackquote⟩, hdollar⟩ := hkeeps
      have hparen : c = '$' → (s ++ rest).head? ≠ some '(' := by
        intro hc
        cases s with
        | nil => exact hrest
        | cons d s => exact hdollar.resolve_left (not_not_intro hc)
      show r.stepDouble outer c (s ++ rest) = r.hide c
      by_cases hd : c = '$'
      · subst hd
        have hhead : ((s ++ rest).head? == some '(') = false := by simpa using hparen rfl
        simp only [Reader.stepDouble, hhead]
        rfl
      · simp [Reader.stepDouble]

/-- Behind a backslash the next line starts as ever. -/
theorem resume_lineFeed_escaped (hheredocs : r.heredocs = []) (rest : List Char) :
    ({ r.hide '\\' with owed := .escaped } : Reader).resume ('\n' :: rest) =
      (r.hide '\\').resume ('\n' :: rest) := by
  have hline : ∀ r' : Reader, r'.heredocs = r.heredocs → r'.contexts = r.contexts →
      r'.code = (r.hide '\\').code → r'.resume ('\n' :: rest) =
        ((Reader.start r.contexts).resume rest).cons ((r.hide '\\').code.reverse, none) := by
    intro r' hr' hcontexts hcode
    rw [r'.resume_lineFeed (hr'.trans hheredocs), hcontexts, hcode]
  rw [hline { r.hide '\\' with owed := .escaped } rfl rfl rfl, hline (r.hide '\\') rfl rfl rfl]

/-- A backslash is masked with the character behind it. -/
theorem resume_escape (hat : r.At (q.context :: outer) last) (hrest : rest.head? ≠ some '\n')
    (hs : ∀ {r' : Reader} {last' : Option Char}, r'.At (q.context :: outer) last' →
      lastAfter last' s = lastAfter last ('\\' :: c :: s) →
      r'.resume (s ++ rest) = Course.plain r'.code (blankOut s ++ more) stop) :
    r.resume ('\\' :: c :: s ++ rest) =
      Course.plain r.code (blankOut ('\\' :: c :: s) ++ more) stop := by
  have hcode := q.readsCode_context outer
  have hhide := hat.hide '\\'
  have hblank : blankOut ('\\' :: c :: s) = maskChar '\\' ++ blankOut (c :: s) := by
    simp [blankOut, maskInLine]
  have hfirst : r.resume ('\\' :: (c :: s ++ rest)) =
      ({ r.hide '\\' with owed := .escaped } : Reader).resume (c :: s ++ rest) := by
    rw [hat.resume_cons (by decide) (by simp) (fun e => by simp [hcode] at e),
      EscapingQuote.stepFree_backslash hat]
  -- The escaped character is masked as any other, and a line end is none.
  have hsecond : ({ r.hide '\\' with owed := .escaped } : Reader).resume (c :: s ++ rest) =
      Course.plain (r.hide '\\').code (blankOut (c :: s) ++ more) stop := by
    by_cases hn : c = '\n'
    · subst hn
      rw [List.cons_append, resume_lineFeed_escaped hat.heredocs_eq]
      exact resume_blankOut_cons hcode hhide hrest (fun h => absurd rfl h) hs
    by_cases hreturn : c = '\r' ∧ s.head? = some '\n'
    · obtain ⟨rfl, hhead⟩ := hreturn
      obtain ⟨s, rfl⟩ := List.head?_eq_some_iff.mp hhead
      have hreturned : blankOut ('\r' :: '\n' :: s) = blankOut ('\n' :: s) := by simp [blankOut]
      rw [hreturned, List.cons_append, List.cons_append, Reader.resume_return,
        resume_lineFeed_escaped hat.heredocs_eq]
      exact hs hhide rfl
    · have hreturn' : c = '\r' → (s ++ rest).head? ≠ some '\n' := by
        intro hc hhead
        cases s with
        | nil => exact hrest hhead
        | cons d s => exact hreturn ⟨hc, hhead⟩
      have hmask : blankOut (c :: s) = maskChar c ++ blankOut s := by
        rw [blankOut, if_neg hreturn, maskInLine, if_neg hn]
      have hstep : ({ r.hide '\\' with owed := .escaped } : Reader).step c (s ++ rest) =
          (r.hide '\\').hide c := by
        show Reader.stepEscaped _ c = _
        simp [Reader.stepEscaped, Reader.hide, hat.contexts_eq, hcode]
      rw [hmask, List.append_assoc, Course.plain_mask, List.cons_append,
        Reader.resume_cons _ hn hreturn' (by simp [Reader.opensComment]) (by simp), hstep]
      refine hs (hhide.hide c) ?_
      simp [lastAfter, hn]
  rw [hblank, List.append_assoc, Course.plain_mask]
  exact hfirst.trans hsecond

/-! ## Texts -/

/-- Text between the quotes is blanked, as long as neither a line feed nor a parenthesis follows. -/
theorem EscapingQuote.resume_fits (hs : q.fits s = true) (hat : r.At (q.context :: outer) last)
    (hline : rest.head? ≠ some '\n') (hparen : rest.head? ≠ some '(')
    (hk : ∀ r' : Reader, r'.At (q.context :: outer) (lastAfter last s) →
      r'.resume rest = Course.plain r'.code more stop) :
    r.resume (s ++ rest) = Course.plain r.code (blankOut s ++ more) stop := by
  have hcode := q.readsCode_context outer
  induction s using EscapingQuote.fits.induct generalizing r last with
  | case1 => exact hk r hat
  | case2 c =>
      simp only [fits, Bool.and_eq_true, bne_iff_ne, ne_eq] at hs
      refine resume_blankOut_cons hcode hat hline
        (fun _ => stepFree_of_keeps hat hs.1 hs.2 hparen) fun hat' hlast => ?_
      exact hk _ (hlast ▸ hat')
  | case3 c s ih =>
      rw [fits, if_pos rfl] at hs
      refine resume_escape hat hline fun hat' hlast => ?_
      exact ih hs hat' fun r' hr' => hk r' (hlast ▸ hr')
  | case4 c d s hc ih =>
      rw [fits, if_neg hc, Bool.and_eq_true] at hs
      refine resume_blankOut_cons hcode hat hline
        (fun _ => stepFree_of_keeps hat hc hs.1 hparen) fun hat' hlast => ?_
      exact ih hs.2 hat' fun r' hr' => hk r' (hlast ▸ hr')

/-- **A text with escapes** shows its line ends and nothing else. -/
theorem EscapedText.shows (s : EscapedText q) {t view : List Char}
    (ht : t.head?.any (fun c => c != '\n' && c != '(') = true)
    (h : ∀ last, Shows (q.context :: outer) last t view contexts) :
    Shows (q.context :: outer) last (s.text ++ t) (blankOut s.text ++ view) contexts := by
  intro r rest more stop hat hk
  obtain ⟨c, hc, hne⟩ := (Option.any_eq_true ..).mp ht
  obtain ⟨t, rfl⟩ := List.head?_eq_some_iff.mp hc
  simp only [Bool.and_eq_true, bne_iff_ne, ne_eq] at hne
  rw [List.append_assoc, List.append_assoc]
  refine EscapingQuote.resume_fits s.fits hat (by simpa using hne.1) (by simpa using hne.2)
    fun r' hat' => ?_
  refine h _ r' rest more stop hat' fun r'' hat'' => hk r'' ?_
  rwa [← lastAfter_append] at hat''

end

end ShellIndex.Program
