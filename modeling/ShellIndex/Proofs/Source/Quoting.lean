import ShellIndex.Proofs.Source.Shows
import ShellIndex.Proofs.Text.Balance

set_option autoImplicit false

/-! # Masking of quoted text

The quoted language of the shell: code, the three kinds of quotation, and the substitutions
inside double quotes, whose text is code again. A text of the language is given by its tree
(`Passage`), which is written as a sequence of cells: the characters, each with whether it
stays visible. The main statement, `scan_passage`, says that the scanner shows exactly the
visible characters, each in its own column, however deep the quotations are nested and wherever
the lines end.

The contexts of the scanner follow the tree: reading a passage that stands in some contexts
ends in the same contexts, up to the parentheses that the passage opens and closes in a
substitution (`Levels`).
-/

namespace ShellIndex.Source

open Text

/-! ## The language -/

/-- A character of a text, with whether the masked view shows it. -/
structure Cell where
  char : Char
  shown : Bool
deriving DecidableEq, Repr

namespace Cell

def text (cells : List Cell) : List Char := cells.map Cell.char

/-- The masked view: what is not shown is as many spaces as it has bytes. -/
def view (cells : List Cell) : List Char :=
  cells.flatMap fun cell => if cell.shown then [cell.char] else maskInLine cell.char

end Cell

/-- A character inside quotes, as itself or behind a backslash. -/
inductive Sign where
  | plain (c : Char)
  | escaped (c : Char)
deriving DecidableEq, Repr

mutual

/-- Code with quotations, from its first character on. -/
inductive Passage where
  | empty
  | code (c : Char) (rest : Passage)
  /-- `'…'` -/
  | single (s : List Char) (rest : Passage)
  /-- `$'…'` -/
  | ansi (s : List Sign) (rest : Passage)
  /-- `"…"` -/
  | double (inside : Quoted) (rest : Passage)

/-- What stands between double quotes. -/
inductive Quoted where
  | empty
  | sign (s : Sign) (rest : Quoted)
  /-- `$(…)` -/
  | substitution (inside : Passage) (rest : Quoted)
  /-- A substitution between backquotes. -/
  | backquote (inside : Passage) (rest : Quoted)

end

def Sign.cells : Sign → List Cell
  | .plain c => [⟨c, false⟩]
  | .escaped c => [⟨'\\', false⟩, ⟨c, false⟩]

mutual

def Passage.cells : Passage → List Cell
  | .empty => []
  | .code c rest => ⟨c, true⟩ :: rest.cells
  | .single s rest =>
      ⟨'\'', true⟩ :: (s.map (⟨·, false⟩) ++ ⟨'\'', true⟩ :: rest.cells)
  | .ansi s rest =>
      ⟨'$', true⟩ :: ⟨'\'', true⟩ :: (s.flatMap Sign.cells ++ ⟨'\'', true⟩ :: rest.cells)
  | .double inside rest => ⟨'"', true⟩ :: (inside.cells ++ ⟨'"', true⟩ :: rest.cells)

def Quoted.cells : Quoted → List Cell
  | .empty => []
  | .sign s rest => s.cells ++ rest.cells
  | .substitution inside rest =>
      ⟨'$', true⟩ :: ⟨'(', true⟩ :: (inside.cells ++ ⟨')', true⟩ :: rest.cells)
  | .backquote inside rest => ⟨'`', true⟩ :: (inside.cells ++ ⟨'`', true⟩ :: rest.cells)

end

/-- The text of a passage. -/
def Passage.text (p : Passage) : List Char := Cell.text p.cells

/-- The masked view of a passage. -/
def Passage.view (p : Passage) : List Char := Cell.view p.cells

/-- The characters of a passage that stand outside its quotations. -/
def Passage.codeText : Passage → List Char
  | .empty => []
  | .code c rest => c :: rest.codeText
  | .single _ rest => rest.codeText
  | .ansi _ rest => '$' :: rest.codeText
  | .double _ rest => rest.codeText

mutual

/-- The passage is one of the language. A single quote right behind a dollar sign would start
`$'…'`, so it starts no `'…'`. -/
def Passage.Valid (afterDollar : Bool) : Passage → Prop
  | .empty => True
  | .code c rest => isPlainCode c = true ∧ rest.Valid (c == '$')
  | .single s rest => afterDollar = false ∧ '\'' ∉ s ∧ rest.Valid false
  | .ansi s rest => Sign.plain '\'' ∉ s ∧ Sign.plain '\\' ∉ s ∧ rest.Valid false
  | .double inside rest => inside.Valid ∧ rest.Valid false

/-- The text between double quotes is one of the language. A dollar sign right before a
parenthesis would start a substitution. -/
def Quoted.Valid : Quoted → Prop
  | .empty => True
  | .sign (.plain c) rest =>
      (c ≠ '"' ∧ c ≠ '\\' ∧ c ≠ '`') ∧
        (c = '$' → (Cell.text rest.cells).head? ≠ some '(') ∧ rest.Valid
  | .sign (.escaped _) rest => rest.Valid
  | .substitution inside rest =>
      inside.Valid false ∧ balance '(' ')' 0 inside.codeText = some 0 ∧ rest.Valid
  | .backquote inside rest => inside.Valid false ∧ rest.Valid

end

/-! ## Cells -/

@[simp] theorem Cell.text_append (cells cells' : List Cell) :
    Cell.text (cells ++ cells') = Cell.text cells ++ Cell.text cells' := by
  simp [Cell.text]

@[simp] theorem Cell.view_append (cells cells' : List Cell) :
    Cell.view (cells ++ cells') = Cell.view cells ++ Cell.view cells' := by
  simp [Cell.view]

theorem Cell.text_cons (c : Char) (shown : Bool) (cells : List Cell) :
    Cell.text (⟨c, shown⟩ :: cells) = [c] ++ Cell.text cells := rfl

theorem Cell.view_shown (c : Char) (cells : List Cell) :
    Cell.view (⟨c, true⟩ :: cells) = [c] ++ Cell.view cells := rfl

theorem Cell.view_hidden (c : Char) (cells : List Cell) :
    Cell.view (⟨c, false⟩ :: cells) = maskInLine c ++ Cell.view cells := rfl

/-! ## Columns -/

/-- The line and the byte column behind the character `c`. -/
def advance (place : Nat × Nat) (c : Char) : Nat × Nat :=
  if c = '\n' then (place.1 + 1, 0) else (place.1, place.2 + c.utf8Size)

/-- The line and the byte column behind a text, both counted from 0. -/
def position (s : List Char) : Nat × Nat := s.foldl advance (0, 0)

theorem foldl_advance_maskInLine (place : Nat × Nat) (c : Char) :
    (maskInLine c).foldl advance place = advance place c := by
  have hspaces : ∀ (n : Nat) (line column : Nat),
      (List.replicate n ' ').foldl advance (line, column) = (line, column + n) := by
    intro n
    induction n with
    | zero => intro line column; rfl
    | succ n ih =>
        intro line column
        have hspace : advance (line, column) ' ' = (line, column + 1) := rfl
        rw [List.replicate_succ, List.foldl_cons, hspace, ih]
        congr 1
        omega
  unfold maskInLine
  by_cases hn : c = '\n'
  · subst hn
    rfl
  · rw [if_neg hn, maskChar, hspaces, advance, if_neg hn]

/-- What follows some cells stands at the same place in the view as in the text. -/
theorem Cell.position_view (cells : List Cell) :
    position (Cell.view cells) = position (Cell.text cells) := by
  have key : ∀ place, (Cell.view cells).foldl advance place =
      (Cell.text cells).foldl advance place := by
    induction cells with
    | nil => intro place; rfl
    | cons cell cells ih =>
        intro place
        obtain ⟨c, shown⟩ := cell
        rw [Cell.text_cons, List.foldl_append]
        by_cases hshown : shown = true
        · subst hshown
          rw [Cell.view_shown, List.foldl_append]
          exact ih _
        · rw [Bool.not_eq_true] at hshown
          subst hshown
          rw [Cell.view_hidden, List.foldl_append, foldl_advance_maskInLine]
          exact ih _
  exact key (0, 0)

/-! ## Parentheses -/

/-- Reading the characters `s` of code leads from `contexts` to `contexts'` without leaving
code. -/
def Levels (contexts : List Context) : List Char → List Context → Prop
  | [], contexts' => contexts = contexts'
  | c :: s, contexts' =>
      readsCode (parens contexts c) = true ∧ Levels (parens contexts c) s contexts'

/-- Outside substitutions parentheses do not count. -/
theorem levels_self {contexts : List Context} (hcode : readsCode contexts = true)
    (hopen : openParen contexts = contexts) (hclose : closeParen contexts = contexts)
    (s : List Char) : Levels contexts s contexts := by
  have hparens : ∀ c, parens contexts c = contexts := by
    intro c
    unfold parens
    split
    · exact hopen
    · split
      · exact hclose
      · rfl
  induction s with
  | nil => rfl
  | cons c s ih =>
      constructor
      · rwa [hparens c]
      · rwa [hparens c]

/-- In a substitution balanced parentheses lead back to its start. -/
theorem levels_substitution {n m : Nat} {s : List Char} (outer : List Context)
    (h : balance '(' ')' n s = some m) :
    Levels (.substitution n :: outer) s (.substitution m :: outer) := by
  induction s generalizing n with
  | nil =>
      simp only [balance, Option.some.injEq] at h
      rw [h]
      rfl
  | cons c s ih =>
      rw [balance] at h
      by_cases hopen : c = '('
      · subst hopen
        exact ⟨rfl, ih h⟩
      · by_cases hclose : c = ')'
        · subst hclose
          cases n with
          | zero => simp at h
          | succ n => exact ⟨rfl, ih (by simpa using h)⟩
        · have hc : parens (.substitution n :: outer) c = .substitution n :: outer := by
            simp [parens, hopen, hclose]
          rw [if_neg hopen, if_neg hclose] at h
          constructor
          · rw [hc]
            rfl
          · rw [hc]
            exact ih h

/-! ## Marks of quotations -/

theorem endsInDollar_of_head?_ne {before : List Char} (h : before.head? ≠ some '$') :
    endsInDollar before = false := by
  unfold endsInDollar
  split
  · exact absurd rfl h
  · rfl

theorem endsInDollar_dollar {before : List Char} (h : before.head? ≠ some '\\') :
    endsInDollar ('$' :: before) = true := by
  have hnone : before.takeWhile (· == '\\') = [] := by
    cases before with
    | nil => rfl
    | cons b before =>
        have hb : b ≠ '\\' := fun e => h (congrArg some e)
        simp [hb]
  rw [endsInDollar, hnone]
  rfl

section
variable {contexts contexts' outer : List Context} {last : Option Char}

theorem Shows.openSingle (hcode : readsCode contexts = true) (hlast : last ≠ some '$') :
    Shows contexts last ['\''] ['\''] (.single :: contexts) := by
  refine Shows.keep (by decide) (by decide) (fun _ => by decide) fun r rest hat => ?_
  have hdollar : endsInDollar r.before = false :=
    endsInDollar_of_head?_ne (by rwa [hat.last_eq])
  rw [hat.stepFree_code hcode, ← hat.contexts_eq]
  simp [Reader.stepCode, hdollar, Reader.keep]

/-- A dollar sign that no backslash escapes turns the quote behind it into `$'…'`. -/
theorem Shows.openAnsi (hcode : readsCode contexts = true) (hlast : last ≠ some '\\') :
    Shows contexts last ['$', '\''] ['$', '\''] (.ansi :: contexts) := by
  intro r rest more stop hat hk
  have hat' := hat.keep (c := '$') (by decide) contexts
  have hdollar : endsInDollar ('$' :: r.before) = true :=
    endsInDollar_dollar (by rwa [hat.last_eq])
  have hstep : ({ r.keep '$' with contexts := contexts } : Reader).stepFree '\'' rest =
      { (r.keep '$').keep '\'' with contexts := .ansi :: contexts } := by
    rw [hat'.stepFree_code hcode]
    simp [Reader.stepCode, Reader.keep, hdollar]
  have hfirst : r.stepFree '$' ('\'' :: rest) = { r.keep '$' with contexts := contexts } := by
    rw [hat.stepFree_code hcode, ← hat.contexts_eq]
    rfl
  simp only [List.cons_append, List.nil_append]
  rw [hat.resume_cons (by decide) (by simp) (fun _ => by decide), hfirst,
    hat'.resume_cons (by decide) (by simp) (fun _ => by decide), hstep,
    Course.plain_cons _ (by decide), Course.plain_cons _ (by decide)]
  exact hk _ (hat'.keep (by decide) _)

theorem Shows.closeSingle : Shows (.single :: outer) last ['\''] ['\''] outer := by
  refine Shows.keep (by decide) (by decide) (fun _ => by decide) fun r rest hat => ?_
  rw [Reader.stepFree, hat.contexts_eq]
  rfl

theorem Shows.closeAnsi : Shows (.ansi :: outer) last ['\''] ['\''] outer := by
  refine Shows.keep (by decide) (by decide) (fun _ => by decide) fun r rest hat => ?_
  rw [Reader.stepFree, hat.contexts_eq]
  rfl

theorem Shows.insideSingle {c : Char} (hc : c ≠ '\'') (hr : c ≠ '\r') :
    Shows (.single :: outer) last [c] (maskInLine c) (.single :: outer) := by
  refine Shows.hide rfl hr fun r rest hat _ => ?_
  rw [Reader.stepFree, hat.contexts_eq]
  simp [Reader.stepSingle]

/-- A backslash masks the next character with itself. At the end of a line there is none. -/
theorem Shows.escape {c : Char} (hr : c ≠ '\r') (hcode : readsCode contexts = false)
    (hstep : ∀ (r : Reader) (rest : List Char), r.At contexts last →
      r.stepFree '\\' rest = { r.hide '\\' with owed := .escaped }) :
    Shows contexts last ['\\', c] (maskInLine '\\' ++ maskInLine c) contexts := by
  intro r rest more stop hat hk
  have hat' := hat.hide '\\'
  simp only [List.cons_append, List.nil_append, List.append_assoc]
  rw [maskInLine, if_neg (by decide), Course.plain_mask,
    hat.resume_cons (by decide) (by simp) (fun e => by simp [hcode] at e), hstep r _ hat]
  -- The reader behind the backslash differs from one that masked it in what it owes.
  generalize hq : ({ r.hide '\\' with owed := .escaped } : Reader) = q
  have hcontexts : q.contexts = contexts := by
    rw [← hq]
    exact hat.contexts_eq
  have hheredocs : q.heredocs = [] := by
    rw [← hq]
    exact hat.heredocs_eq
  have hshown : q.code = (r.hide '\\').code := by rw [← hq]
  have howed : q.owed = .escaped := by rw [← hq]
  by_cases hn : c = '\n'
  · subst hn
    rw [maskInLine, if_pos rfl, List.singleton_append, Reader.resume_lineFeed _ hheredocs,
      hcontexts, hshown, hk _ (Reader.at_start contexts)]
    exact (Course.plain_lineFeed hat'.no_return more stop).symm
  · rw [maskInLine, if_neg hn, Course.plain_mask, Reader.resume_cons _ hn (fun e => absurd e hr)
      (by simp [Reader.opensComment, howed]) (by simp [howed])]
    have hhide : q.step c rest = (r.hide '\\').hide c := by
      rw [Reader.step, howed]
      show q.stepEscaped c = _
      rw [Reader.stepEscaped, hcontexts, hcode, ← hq]
      rfl
    rw [hhide]
    refine hk _ ?_
    simpa [lastAfter, hn] using hat'.hide c

theorem Shows.signAnsi {s : Sign} (hc : s ≠ .plain '\'' ∧ s ≠ .plain '\\')
    (hr : '\r' ∉ Cell.text s.cells) :
    Shows (.ansi :: outer) last (Cell.text s.cells) (Cell.view s.cells) (.ansi :: outer) := by
  cases s with
  | plain c =>
      have hc₁ : c ≠ '\'' := fun e => hc.1 (by rw [e])
      have hc₂ : c ≠ '\\' := fun e => hc.2 (by rw [e])
      have hr' : c ≠ '\r' := by
        rintro rfl
        exact hr (by decide)
      have h : Shows (.ansi :: outer) last [c] (maskInLine c) (.ansi :: outer) := by
        refine Shows.hide rfl hr' fun r rest hat _ => ?_
        rw [Reader.stepFree, hat.contexts_eq]
        simp [Reader.stepAnsi]
      simpa [Sign.cells, Cell.text, Cell.view] using h
  | escaped c =>
      have hr' : c ≠ '\r' := by
        rintro rfl
        exact hr (by decide)
      have h : Shows (.ansi :: outer) last ['\\', c] (maskInLine '\\' ++ maskInLine c)
          (.ansi :: outer) := by
        refine Shows.escape hr' rfl fun r rest hat => ?_
        rw [Reader.stepFree, hat.contexts_eq]
        rfl
      simpa [Sign.cells, Cell.text, Cell.view] using h

end

/-! ## What a passage shows -/

theorem shows_insideSingle {outer : List Context} {last : Option Char} {s : List Char}
    (hs : '\'' ∉ s) (hr : '\r' ∉ s) :
    Shows (.single :: outer) last (Cell.text (s.map (⟨·, false⟩)))
      (Cell.view (s.map (⟨·, false⟩))) (.single :: outer) := by
  induction s generalizing last with
  | nil => exact Shows.nil
  | cons c s ih =>
      simp only [List.mem_cons, not_or] at hs hr
      rw [List.map_cons, Cell.text_cons, Cell.view_hidden]
      exact (Shows.insideSingle (Ne.symm hs.1) (Ne.symm hr.1)).append (ih hs.2 hr.2)

theorem shows_insideAnsi {outer : List Context} {last : Option Char} {s : List Sign}
    (hs : Sign.plain '\'' ∉ s) (hb : Sign.plain '\\' ∉ s)
    (hr : '\r' ∉ Cell.text (s.flatMap Sign.cells)) :
    Shows (.ansi :: outer) last (Cell.text (s.flatMap Sign.cells))
      (Cell.view (s.flatMap Sign.cells)) (.ansi :: outer) := by
  induction s generalizing last with
  | nil => exact Shows.nil
  | cons c s ih =>
      simp only [List.mem_cons, not_or] at hs hb
      simp only [List.flatMap_cons, Cell.text_append, Cell.view_append, List.mem_append,
        not_or] at hr ⊢
      exact (Shows.signAnsi ⟨Ne.symm hs.1, Ne.symm hb.1⟩ hr.1).append (ih hs.2 hb.2 hr.2)

/-- What stands between double quotes never lets the parenthesis of a substitution follow. -/
theorem head?_append_quote {s : List Char} (h : s.head? ≠ some '(') :
    (s ++ ['"']).head? ≠ some '(' := by
  cases s with
  | nil => simp
  | cons c s => simpa using h

-- Both inductions follow the tree. The contexts around a passage are arbitrary, since the same
-- passage may stand in plain code and in substitutions of any depth.
mutual

theorem shows_passage : (p : Passage) → {afterDollar : Bool} →
    {contexts contexts' : List Context} → {last : Option Char} → p.Valid afterDollar →
    '\r' ∉ Cell.text p.cells →
    readsCode contexts = true → Levels contexts p.codeText contexts' →
    (last = some '$' → afterDollar = true) → last ≠ some '\\' →
    Shows contexts last (Cell.text p.cells) (Cell.view p.cells) contexts'
  | .empty, _, contexts, contexts', _, _, _, _, hl, _, _ => by
      have hsame : contexts = contexts' := hl
      subst hsame
      exact Shows.nil
  | .code c rest, _, contexts, contexts', last, hp, hr, hcode, hl, _, _ => by
      obtain ⟨hc, hrest⟩ := hp
      obtain ⟨hcode', hl'⟩ := hl
      rw [Passage.cells, Cell.text_cons] at hr ⊢
      rw [Cell.view_shown]
      simp only [List.singleton_append, List.mem_cons, not_or] at hr
      refine (Shows.code hcode hc (Ne.symm hr.1)).append
        (shows_passage rest hrest hr.2 hcode' hl' ?_ ?_)
      · by_cases hn : c = '\n' <;> simp [lastAfter, hn]
      · have hslash : c ≠ '\\' := (ne_of_isPlainCode hc).1.2.2.1
        by_cases hn : c = '\n' <;> simp [lastAfter, hn, hslash]
  | .single s rest, _, contexts, contexts', last, hp, hr, hcode, hl, hd, hb => by
      obtain ⟨hdollar, hs, hrest⟩ := hp
      -- A dollar sign before the quote would have to be one of the passage itself.
      have hlast : last ≠ some '$' := by
        intro e
        rw [hd e] at hdollar
        cases hdollar
      have hr' : '\r' ∉ s ∧ '\r' ∉ Cell.text rest.cells := by
        simpa [Passage.cells, Cell.text] using hr
      simp only [Passage.cells, Cell.text_cons, Cell.view_shown, Cell.text_append,
        Cell.view_append]
      refine (Shows.openSingle hcode hlast).append ((shows_insideSingle hs hr'.1).append
        (Shows.closeSingle.append (shows_passage rest hrest hr'.2 hcode hl ?_ ?_)))
      · simp [lastAfter]
      · simp [lastAfter]
  | .ansi s rest, _, contexts, contexts', last, hp, hr, hcode, hl, hd, hb => by
      obtain ⟨hs, hs', hrest⟩ := hp
      have hr' : '\r' ∉ Cell.text (s.flatMap Sign.cells) ∧ '\r' ∉ Cell.text rest.cells := by
        simpa [Passage.cells, Cell.text] using hr
      have hl' : Levels contexts rest.codeText contexts' := hl.2
      have h : Shows contexts last _ _ contexts' :=
        (Shows.openAnsi hcode hb).append ((shows_insideAnsi hs hs' hr'.1).append
          (Shows.closeAnsi.append (shows_passage rest hrest hr'.2 hcode hl'
            (by simp [lastAfter]) (by simp [lastAfter]))))
      simpa [Passage.cells, Cell.text_cons, Cell.view_shown] using h
  | .double inside rest, _, contexts, contexts', last, hp, hr, hcode, hl, hd, hb => by
      obtain ⟨hinside, hrest⟩ := hp
      have hr' : '\r' ∉ Cell.text inside.cells ∧ '\r' ∉ Cell.text rest.cells := by
        simpa [Passage.cells, Cell.text] using hr
      have h : Shows contexts last _ _ contexts' :=
        (Shows.openDouble hcode).append ((shows_quoted inside hinside hr'.1).append
          (shows_passage rest hrest hr'.2 hcode hl (by simp [lastAfter]) (by simp [lastAfter])))
      simpa [Passage.cells, Cell.text_cons, Cell.view_shown] using h

theorem shows_quoted : (q : Quoted) → {outer : List Context} → {last : Option Char} → q.Valid →
    '\r' ∉ Cell.text q.cells →
    Shows (.double :: outer) last (Cell.text q.cells ++ ['"']) (Cell.view q.cells ++ ['"']) outer
  | .empty, _, _, _, _ => Shows.closeDouble
  | .sign (.plain c) rest, outer, last, hq, hr => by
      obtain ⟨hc, hdollar, hrest⟩ := hq
      have hr' : '\r' ≠ c ∧ '\r' ∉ Cell.text rest.cells := by
        simpa [Quoted.cells, Sign.cells, Cell.text] using hr
      have hdollar' : c = '$' → (Cell.text rest.cells ++ ['"']).head? ≠ some '(' :=
        fun e => head?_append_quote (hdollar e)
      have h : Shows (.double :: outer) last _ _ outer :=
        Shows.literal (by simp) hc (Ne.symm hr'.1) hdollar' (shows_quoted rest hrest hr'.2)
      simpa [Quoted.cells, Sign.cells, Cell.text_cons, Cell.view_hidden] using h
  | .sign (.escaped c) rest, outer, last, hq, hr => by
      have hr' : '\r' ≠ c ∧ '\r' ∉ Cell.text rest.cells := by
        simpa [Quoted.cells, Sign.cells, Cell.text] using hr
      have hescape : Shows (.double :: outer) last ['\\', c]
          (maskInLine '\\' ++ maskInLine c) (.double :: outer) := by
        refine Shows.escape (Ne.symm hr'.1) rfl fun r rest hat => ?_
        rw [Reader.stepFree, hat.contexts_eq]
        rfl
      have h : Shows (.double :: outer) last _ _ outer :=
        hescape.append (shows_quoted rest hq hr'.2)
      simpa [Quoted.cells, Sign.cells, Cell.text_cons, Cell.view_hidden] using h
  | .substitution inside rest, outer, last, hq, hr => by
      obtain ⟨hinside, hbalance, hrest⟩ := hq
      have hr' : '\r' ∉ Cell.text inside.cells ∧ '\r' ∉ Cell.text rest.cells := by
        simpa [Quoted.cells, Cell.text] using hr
      have hlevels : Levels (.substitution 0 :: .double :: outer) inside.codeText
          (.substitution 0 :: .double :: outer) := levels_substitution _ hbalance
      have h : Shows (.double :: outer) last _ _ outer :=
        Shows.openSubstitution.append ((shows_passage inside hinside hr'.1 rfl hlevels
          (by simp [lastAfter]) (by simp [lastAfter])).append
            ((Shows.closeParen rfl).append (shows_quoted rest hrest hr'.2)))
      simpa [Quoted.cells, Cell.text_cons, Cell.view_shown] using h
  | .backquote inside rest, outer, last, hq, hr => by
      obtain ⟨hinside, hrest⟩ := hq
      have hr' : '\r' ∉ Cell.text inside.cells ∧ '\r' ∉ Cell.text rest.cells := by
        simpa [Quoted.cells, Cell.text] using hr
      have hflat : Levels (.backquote :: .double :: outer) inside.codeText
          (.backquote :: .double :: outer) := levels_self rfl rfl rfl _
      have h : Shows (.double :: outer) last _ _ outer :=
        Shows.openBackquote.append ((shows_passage inside hinside hr'.1 rfl hflat
          (by simp [lastAfter]) (by simp [lastAfter])).append
            (Shows.closeBackquote.append (shows_quoted rest hrest hr'.2)))
      simpa [Quoted.cells, Cell.text_cons, Cell.view_shown] using h

end

/-- **The scanner shows exactly the code of a quoted text.** The masked lines of a text of the
quoted language are the lines of its view, in which every character keeps its line and its byte
column; no line has a comment, and nothing is open after the text. -/
theorem scan_passage (p : Passage) (hp : p.Valid false) (hr : '\r' ∉ p.text) :
    (scan (String.ofList p.text)).map Line.code = lines p.view ∧
      (∀ l ∈ scan (String.ofList p.text), l.comment = none) ∧
      Open.nothing.after (lines p.text) = Open.nothing ∧
      ∀ before cell after, p.cells = before ++ cell :: after →
        position (Cell.view before) = position (Cell.text before) := by
  have hflat : Levels [] p.codeText [] := levels_self rfl rfl rfl _
  have hshows : Shows [] none p.text p.view [] :=
    shows_passage p hp hr rfl hflat (by simp) (by simp)
  obtain ⟨hcode, hcomment⟩ := hshows.map_code_scan
  exact ⟨hcode, hcomment, hshows.map_view_scan.2, fun before _ _ _ => Cell.position_view before⟩

/-- Double quotes with a substitution over two lines, and `$'\''` behind them. -/
def nested : Passage :=
  .double (.sign (.plain 'é') (.substitution
      (.code 'f' (.code '\n' (.single ['a', ')'] .empty))) (.sign (.plain '$') .empty)))
    (.ansi [.escaped '\''] .empty)

theorem scan_nested :
    nested.Valid false ∧ '\r' ∉ nested.text ∧
      (scan (String.ofList nested.text)).map Line.code =
        ["\"  $(f".toList, "'  ') \"$'  '".toList] := by
  have hvalid : nested.Valid false := by
    simp only [nested, Passage.Valid, Quoted.Valid, Cell.text, Quoted.cells]
    decide
  have hreturn : '\r' ∉ nested.text := by decide
  refine ⟨hvalid, hreturn, ?_⟩
  rw [(scan_passage nested hvalid hreturn).1]
  decide

end ShellIndex.Source
