import Mathlib.Data.List.Chain
import ShellIndex.Proofs.Source.Places

set_option autoImplicit false

/-! # How contexts nest

A character opens a context, closes the innermost one, counts a parenthesis in it, or leaves the stack
alone (`Move`). What a context is opened on decides where it can stand in a stack (`Context.SitsOn`):
a quotation in code, code in double quotes. Since only the innermost context is ever closed, the stack
is then what it was when that context was opened.

The argument looks at all the stacks of a scan at once (`Open.history`): each of them comes from the
one before it by a move.
-/

namespace ShellIndex.Source

/-! ## Moves -/

namespace Context

/-- Whether characters in a context of this kind are code. -/
def isCode : Context → Bool
  | substitution _ | backquote => true
  | _ => false

/-- A context of the same kind as it is opened, when no parenthesis has been counted in it. -/
def opened : Context → Context
  | substitution _ => substitution 0
  | c => c

/-- Whether a context may be opened inside a stack. -/
def SitsOn (c : Context) (below : List Context) : Prop :=
  if c.isCode then below.head? = some .double else readsCode below = true

variable {c : Context} {below : List Context}

theorem sitsOn_of_isCode (hc : c.isCode = true) : c.SitsOn below ↔ below.head? = some .double := by
  rw [SitsOn, if_pos hc]

theorem sitsOn_of_not_isCode (hc : c.isCode = false) : c.SitsOn below ↔ readsCode below = true := by
  rw [SitsOn, hc, if_neg (by simp)]

theorem opened_opened (c : Context) : c.opened.opened = c.opened := by cases c <;> rfl

end Context

theorem readsCode_cons (c : Context) (below : List Context) :
    readsCode (c :: below) = c.isCode := by cases c <;> rfl

/-- What one character can do to a stack. -/
inductive Move : List Context → List Context → Prop where
  /-- Nothing. -/
  | stay (contexts : List Context) : Move contexts contexts
  /-- A context is opened where it may stand. -/
  | enter {c : Context} {contexts : List Context} (hnew : c.opened = c) (hc : c.SitsOn contexts) :
      Move contexts (c :: contexts)
  /-- The innermost context is closed, all parentheses in it being closed. -/
  | leave {c : Context} {contexts : List Context} (hnew : c.opened = c) :
      Move (c :: contexts) contexts
  /-- A parenthesis is opened or closed in a substitution. -/
  | count (parens parens' : Nat) (outer : List Context) :
      Move (.substitution parens :: outer) (.substitution parens' :: outer)

theorem move_openParen (contexts : List Context) : Move contexts (openParen contexts) := by
  rcases contexts with _ | ⟨top, outer⟩
  · exact .stay []
  · cases top with
    | substitution parens => exact .count parens (parens + 1) outer
    | backquote | double | single | ansi => exact .stay _

theorem move_closeParen (contexts : List Context) : Move contexts (closeParen contexts) := by
  rcases contexts with _ | ⟨top, outer⟩
  · exact .stay []
  · cases top with
    | substitution parens =>
        cases parens with
        | zero => exact .leave rfl
        | succ parens => exact .count (parens + 1) parens outer
    | backquote | double | single | ansi => exact .stay _

theorem move_closeBackquote (contexts : List Context) : Move contexts (closeBackquote contexts) := by
  rcases contexts with _ | ⟨top, outer⟩
  · exact .stay []
  · cases top with
    | backquote => exact .leave rfl
    | substitution parens => exact .stay _
    | double | single | ansi => exact .stay _

namespace Reader
variable {r : Reader} {c : Char} {rest : List Char} {outer : List Context}

theorem contexts_announce (r : Reader) (rest : List Char) :
    (r.announce rest).contexts = r.contexts := by
  unfold announce
  split <;> rfl

theorem move_stepCode (hcode : readsCode r.contexts = true) (c : Char) (rest : List Char) :
    Move r.contexts (r.stepCode c rest).contexts := by
  unfold stepCode
  split
  · exact .stay _
  · -- Both kinds of single quotes stand in code.
    show Move r.contexts ((if endsInDollar r.before then .ansi else .single) :: r.contexts)
    split
    · exact .enter rfl ((Context.sitsOn_of_not_isCode rfl).mpr hcode)
    · exact .enter rfl ((Context.sitsOn_of_not_isCode rfl).mpr hcode)
  · exact .enter rfl ((Context.sitsOn_of_not_isCode rfl).mpr hcode)
  · exact move_closeBackquote r.contexts
  · exact move_openParen r.contexts
  · exact move_closeParen r.contexts
  · split
    · rw [contexts_announce]
      exact .stay _
    · exact .stay _
  · exact .stay _

theorem move_stepDouble (h : r.contexts = .double :: outer) (c : Char) (rest : List Char) :
    Move r.contexts (r.stepDouble outer c rest).contexts := by
  have hdouble : r.contexts.head? = some .double := by rw [h]; rfl
  unfold stepDouble
  split
  · exact .stay _
  · rw [h]
    exact .leave rfl
  · split
    · exact .enter rfl ((Context.sitsOn_of_isCode rfl).mpr hdouble)
    · exact .stay _
  · exact .enter rfl ((Context.sitsOn_of_isCode rfl).mpr hdouble)
  · exact .stay _

theorem move_stepSingle (h : r.contexts = .single :: outer) (c : Char) :
    Move r.contexts (r.stepSingle outer c).contexts := by
  unfold stepSingle
  split
  · rw [h]
    exact .leave rfl
  · exact .stay _

theorem move_stepAnsi (h : r.contexts = .ansi :: outer) (c : Char) :
    Move r.contexts (r.stepAnsi outer c).contexts := by
  unfold stepAnsi
  split
  · exact .stay _
  · rw [h]
    exact .leave rfl
  · exact .stay _

theorem move_stepFree (r : Reader) (c : Char) (rest : List Char) :
    Move r.contexts (r.stepFree c rest).contexts := by
  unfold stepFree
  split
  · next outer h => exact move_stepDouble h c rest
  · next outer h => exact move_stepSingle h c
  · next outer h => exact move_stepAnsi h c
  · next hdouble hsingle hansi =>
      refine move_stepCode ?_ c rest
      rcases h : r.contexts with _ | ⟨top, outer⟩
      · rfl
      · cases top with
        | substitution | backquote => rfl
        | double => exact absurd h (hdouble outer)
        | single => exact absurd h (hsingle outer)
        | ansi => exact absurd h (hansi outer)

/-- **Every character makes one move.** -/
theorem move_step (r : Reader) (c : Char) (rest : List Char) :
    Move r.contexts (r.step c rest).contexts := by
  unfold step
  split
  · exact r.move_stepFree c rest
  · unfold stepEscaped
    split <;> exact .stay _
  · exact .stay _
  · exact .stay _

end Reader

/-! ## The stacks of a scan -/

/-- The stacks before each character that is read, and behind the last of them. -/
def Reader.history (r : Reader) : List Char → List (List Context)
  | [] => [r.contexts]
  | c :: rest =>
      if r.opensComment c then [r.contexts] else r.contexts :: (r.step c rest).history rest

/-- The stacks of a line. A line of a here-document has the one that it leaves alone. -/
def Open.lineHistory (o : Open) (raw : List Char) : List (List Context) :=
  match o.heredocs with
  | _ :: _ => [o.contexts]
  | [] => (Reader.start o.contexts).history raw

/-- The stacks of some lines and behind them. -/
def Open.history (o : Open) : List (List Char) → List (List Context)
  | [] => [o.contexts]
  | raw :: raws => o.lineHistory raw ++ (o.read raw).next.history raws

namespace Reader

theorem head?_history (r : Reader) (s : List Char) : (r.history s).head? = some r.contexts := by
  cases s with
  | nil => rfl
  | cons c rest =>
      rw [history]
      split <;> rfl

/-- The last stack of a line is the one that the next line starts with. -/
theorem getLast?_history (r : Reader) (s : List Char) :
    (r.history s).getLast? = some (r.run s).1.contexts := by
  induction s generalizing r with
  | nil => rfl
  | cons c rest ih =>
      rw [history, run]
      split
      · rfl
      · rw [List.getLast?_cons, ih]
        rfl

theorem isChain_history (r : Reader) (s : List Char) : (r.history s).IsChain Move := by
  induction s generalizing r with
  | nil => exact List.isChain_singleton _
  | cons c rest ih =>
      rw [history]
      split
      · exact List.isChain_singleton _
      · refine List.isChain_cons.mpr ⟨fun next hnext => ?_, ih _⟩
        rw [head?_history] at hnext
        obtain rfl := Option.some.inj hnext
        exact r.move_step c rest

/-- The stacks of a line are those of the readers that come along it. -/
theorem mem_history_iff {r : Reader} {s : List Char} {contexts : List Context} :
    contexts ∈ r.history s ↔ ∃ front onward r', s = front ++ onward ∧
      r.readTo onward front = some r' ∧ r'.contexts = contexts := by
  induction s generalizing r with
  | nil =>
      constructor
      · intro h
        obtain rfl := List.mem_singleton.mp h
        exact ⟨[], [], r, rfl, rfl, rfl⟩
      · rintro ⟨front, onward, r', hs, hreach, rfl⟩
        obtain ⟨rfl, rfl⟩ := List.nil_eq_append_iff.mp hs
        obtain rfl := Option.some.inj hreach
        exact List.mem_singleton_self _
  | cons c rest ih =>
      constructor
      · intro h
        rw [history] at h
        split at h
        · obtain rfl := List.mem_singleton.mp h
          exact ⟨[], _, r, rfl, rfl, rfl⟩
        · next hopens =>
            rcases List.mem_cons.mp h with rfl | h
            · exact ⟨[], _, r, rfl, rfl, rfl⟩
            · obtain ⟨front, onward, r', rfl, hreach, hcontexts⟩ := ih.mp h
              exact ⟨c :: front, onward, r', rfl,
                readTo_cons_iff.mpr ⟨Bool.eq_false_iff.mpr hopens, hreach⟩, hcontexts⟩
      · rintro ⟨front, onward, r', hs, hreach, hcontexts⟩
        rcases front with _ | ⟨d, front⟩
        · obtain rfl := Option.some.inj hreach
          rw [← hcontexts]
          exact List.mem_of_mem_head? (r.head?_history (c :: rest))
        · obtain ⟨rfl, rfl⟩ := List.cons.inj hs
          obtain ⟨hopens, hreach⟩ := readTo_cons_iff.mp hreach
          rw [history, if_neg (by simp [hopens])]
          exact List.mem_cons_of_mem _ (ih.mpr ⟨front, onward, r', rfl, hreach, hcontexts⟩)

end Reader

namespace Open

theorem head?_lineHistory (o : Open) (raw : List Char) :
    (o.lineHistory raw).head? = some o.contexts := by
  unfold lineHistory
  split
  · rfl
  · exact Reader.head?_history _ raw

theorem getLast?_lineHistory (o : Open) (raw : List Char) :
    (o.lineHistory raw).getLast? = some (o.read raw).next.contexts := by
  rw [lineHistory, read]
  cases o.heredocs with
  | nil => exact Reader.getLast?_history _ raw
  | cons doc more =>
      dsimp only
      split <;> rfl

theorem isChain_lineHistory (o : Open) (raw : List Char) : (o.lineHistory raw).IsChain Move := by
  unfold lineHistory
  split
  · exact List.isChain_singleton _
  · exact Reader.isChain_history _ raw

theorem head?_history (o : Open) (raws : List (List Char)) :
    (o.history raws).head? = some o.contexts := by
  cases raws with
  | nil => rfl
  | cons raw raws => rw [history, List.head?_append, head?_lineHistory, Option.some_or]

/-- **A scan is a sequence of moves**, over the ends of lines too. -/
theorem isChain_history (o : Open) (raws : List (List Char)) : (o.history raws).IsChain Move := by
  induction raws generalizing o with
  | nil => exact List.isChain_singleton _
  | cons raw raws ih =>
      refine List.isChain_append.mpr ⟨o.isChain_lineHistory raw, ih _, fun last hlast next hnext => ?_⟩
      rw [getLast?_lineHistory] at hlast
      rw [head?_history] at hnext
      obtain rfl := Option.some.inj hlast
      obtain rfl := Option.some.inj hnext
      exact .stay _

/-- The stacks of a scan are the one behind it and those of its lines. -/
theorem mem_history_iff {o : Open} {raws : List (List Char)} {contexts : List Context} :
    contexts ∈ o.history raws ↔ contexts = (o.after raws).contexts ∨
      ∃ above raw below, raws = above ++ raw :: below ∧
        contexts ∈ (o.after above).lineHistory raw := by
  induction raws generalizing o with
  | nil => simp [history, after]
  | cons raw raws ih =>
      rw [history, List.mem_append, ih]
      constructor
      · rintro (h | rfl | ⟨above, line, below, rfl, h⟩)
        · exact Or.inr ⟨[], raw, raws, rfl, h⟩
        · exact Or.inl rfl
        · exact Or.inr ⟨raw :: above, line, below, rfl, h⟩
      · rintro (rfl | ⟨above, line, below, hraws, h⟩)
        · exact Or.inr (Or.inl rfl)
        · rcases above with _ | ⟨first, above⟩
          · obtain ⟨rfl, rfl⟩ := List.cons.inj hraws
            exact Or.inl h
          · obtain ⟨rfl, rfl⟩ := List.cons.inj hraws
            exact Or.inr (Or.inr ⟨above, line, below, rfl, h⟩)

end Open

/-- A reader at a place in a script has one of the stacks of the script. -/
theorem Place.At.mem_history {p : Place} {text : String} {r : Reader} (h : p.At text r) :
    r.contexts ∈ Open.nothing.history (Text.lines text.toList) := by
  refine Open.mem_history_iff.mpr (Or.inr ⟨p.above, p.line, p.below, h.lines_eq, ?_⟩)
  have hline : p.openBefore.lineHistory p.line =
      (Reader.start p.openBefore.contexts).history p.line := by
    rw [Open.lineHistory, h.no_heredoc]
  show r.contexts ∈ p.openBefore.lineHistory p.line
  rw [hline]
  exact Reader.mem_history_iff.mpr ⟨p.front, p.onward, r, rfl, h.readTo_eq, rfl⟩

/-! ## The shape of a stack -/

/-- Every context of a stack is one that may be opened on those below it. -/
def Nested : List Context → Prop
  | [] => True
  | c :: below => c.SitsOn below ∧ Nested below

theorem Move.nested {contexts contexts' : List Context} (h : Move contexts contexts')
    (hnested : Nested contexts) : Nested contexts' := by
  cases h with
  | stay => exact hnested
  | enter hnew hc => exact ⟨hc, hnested⟩
  | leave hnew => exact hnested.2
  | count parens parens' outer =>
      exact ⟨(Context.sitsOn_of_isCode rfl).mpr ((Context.sitsOn_of_isCode rfl).mp hnested.1),
        hnested.2⟩

theorem nested_of_isChain {history : List (List Context)} {first contexts : List Context}
    (hchain : (first :: history).IsChain Move) (hfirst : Nested first)
    (h : contexts ∈ first :: history) : Nested contexts := by
  induction history generalizing first with
  | nil =>
      obtain rfl := List.mem_singleton.mp h
      exact hfirst
  | cons next history ih =>
      rcases List.mem_cons.mp h with rfl | h
      · exact hfirst
      · obtain ⟨hmove, hchain⟩ := List.isChain_cons_cons.mp hchain
        exact ih hchain (hmove.nested hfirst) h

theorem nested_of_mem_history {raws : List (List Char)} {contexts : List Context}
    (h : contexts ∈ Open.nothing.history raws) : Nested contexts := by
  obtain ⟨history, hhistory⟩ := List.head?_eq_some_iff.mp (Open.nothing.head?_history raws)
  rw [hhistory] at h
  have hchain := Open.nothing.isChain_history raws
  rw [hhistory] at hchain
  exact nested_of_isChain hchain trivial h

/-- Read from the bottom, double quotes and code inside them take turns, and one quotation may stand
on top. -/
def Alternates (contexts : List Context) : Prop :=
  ∃ (codes : List Context) (top : Option Context), (∀ c ∈ codes, c.isCode = true) ∧
    (∀ c, top = some c → c.isCode = false) ∧
    contexts.reverse = codes.flatMap (fun c => [.double, c]) ++ top.toList

section
variable {above below contexts : List Context} {c d : Context}

/-- The quotation on top is the innermost context, where that is one. -/
theorem Nested.exists_codes (h : Nested contexts) :
    ∃ codes : List Context, (∀ c ∈ codes, c.isCode = true) ∧ contexts.reverse =
      codes.flatMap (fun c => [.double, c]) ++
        (contexts.head?.filter fun c => !c.isCode).toList := by
  induction contexts with
  | nil => exact ⟨[], by simp, rfl⟩
  | cons c below ih =>
      obtain ⟨codes, hcodes, hreverse⟩ := ih h.2
      cases hc : c.isCode with
      | true =>
          obtain ⟨outer, rfl⟩ :=
            List.head?_eq_some_iff.mp ((Context.sitsOn_of_isCode hc).mp h.1)
          refine ⟨codes ++ [c], ?_, ?_⟩
          · simpa [or_imp, forall_and, hc] using hcodes
          · rw [List.reverse_cons, hreverse]
            have hdouble : Context.isCode .double = false := rfl
            simp [Option.filter, hc, hdouble]
      | false =>
          have hcode := (Context.sitsOn_of_not_isCode hc).mp h.1
          have hnone : (below.head?.filter fun c => !c.isCode) = none := by
            cases below with
            | nil => rfl
            | cons d below =>
                rw [readsCode_cons] at hcode
                simp [Option.filter, hcode]
          refine ⟨codes, hcodes, ?_⟩
          rw [List.reverse_cons, hreverse, hnone]
          simp [Option.filter, hc]

theorem Nested.alternates (h : Nested contexts) : Alternates contexts := by
  obtain ⟨codes, hcodes, hreverse⟩ := h.exists_codes
  refine ⟨codes, _, hcodes, fun c hc => ?_, hreverse⟩
  simpa using (Option.filter_eq_some_iff.mp hc).2

theorem Nested.sitsOn (h : Nested (above ++ c :: below)) : c.SitsOn below := by
  induction above with
  | nil => exact h.1
  | cons d above ih => exact ih h.2

/-- Only double quotes and code have contexts on them. -/
theorem Nested.eq_nil_of_quotation (h : Nested (above ++ c :: below)) (hc : c.isCode = false)
    (hdouble : c ≠ .double) : above = [] := by
  rcases List.eq_nil_or_concat above with rfl | ⟨front, d, rfl⟩
  · rfl
  · rw [List.concat_eq_append, List.append_assoc, List.singleton_append] at h
    exfalso
    cases hd : d.isCode with
    | true => exact hdouble (Option.some.inj ((Context.sitsOn_of_isCode hd).mp h.sitsOn))
    | false =>
        have hcode := (Context.sitsOn_of_not_isCode hd).mp h.sitsOn
        rw [readsCode_cons, hc] at hcode
        cases hcode

/-! ## Opening and closing -/

theorem Move.of_length_lt {contexts' : List Context} (h : Move contexts contexts')
    (hlength : contexts'.length < contexts.length) :
    ∃ c, contexts = c :: contexts' ∧ c.opened = c := by
  cases h with
  | stay => exact absurd hlength (Nat.lt_irrefl _)
  | enter hnew hc => exact absurd hlength (by simp)
  | @leave c _ hnew => exact ⟨c, rfl, hnew⟩
  | count parens parens' outer => exact absurd hlength (by simp)

theorem Move.of_lt_length {contexts' : List Context} (h : Move contexts contexts')
    (hlength : contexts.length < contexts'.length) :
    ∃ c, contexts' = c :: contexts ∧ c.opened = c := by
  cases h with
  | stay => exact absurd hlength (Nat.lt_irrefl _)
  | @enter c _ hnew hc => exact ⟨c, rfl, hnew⟩
  | leave hnew => exact absurd hlength (by simp)
  | count parens parens' outer => exact absurd hlength (by simp)

/-- Whether a stack has a context of the kind of `c` that is open on `outer`. -/
def Holds (c : Context) (outer contexts : List Context) : Prop :=
  ∃ above c', c'.opened = c.opened ∧ contexts = above ++ c' :: outer

/-- A context comes into a stack only by being opened on what is below it then. -/
theorem Move.holds_before {contexts' outer : List Context} (h : Move contexts contexts')
    (hholds : Holds c outer contexts') :
    Holds c outer contexts ∨ (contexts = outer ∧ contexts' = c.opened :: outer) := by
  obtain ⟨above, c', hkind, hcontexts'⟩ := hholds
  cases h with
  | stay => exact Or.inl ⟨above, c', hkind, hcontexts'⟩
  | @enter d _ hnew hd =>
      rcases above with _ | ⟨e, above⟩
      · obtain ⟨rfl, rfl⟩ := List.cons.inj hcontexts'
        exact Or.inr ⟨rfl, by rw [← hkind, hnew]⟩
      · exact Or.inl ⟨above, c', hkind, (List.cons.inj hcontexts').2⟩
  | @leave d _ hnew => exact Or.inl ⟨d :: above, c', hkind, congrArg (d :: ·) hcontexts'⟩
  | count parens parens' outer' =>
      rcases above with _ | ⟨e, above⟩
      · obtain ⟨rfl, rfl⟩ := List.cons.inj hcontexts'
        exact Or.inl ⟨[], .substitution parens, hkind, rfl⟩
      · obtain ⟨-, rfl⟩ := List.cons.inj hcontexts'
        exact Or.inl ⟨.substitution parens :: above, c', hkind, rfl⟩

/-- A context goes out of a stack only by being closed, which leaves what is below it. -/
theorem Move.holds_after {contexts' outer : List Context} (h : Move contexts contexts')
    (hholds : Holds c outer contexts) :
    Holds c outer contexts' ∨ (contexts = c.opened :: outer ∧ contexts' = outer) := by
  obtain ⟨above, c', hkind, hcontexts⟩ := hholds
  cases h with
  | stay => exact Or.inl ⟨above, c', hkind, hcontexts⟩
  | @enter d _ hnew hd => exact Or.inl ⟨d :: above, c', hkind, congrArg (d :: ·) hcontexts⟩
  | @leave d _ hnew =>
      rcases above with _ | ⟨e, above⟩
      · obtain ⟨rfl, rfl⟩ := List.cons.inj hcontexts
        exact Or.inr ⟨by rw [← hkind, hnew], rfl⟩
      · exact Or.inl ⟨above, c', hkind, (List.cons.inj hcontexts).2⟩
  | count parens parens' outer' =>
      rcases above with _ | ⟨e, above⟩
      · obtain ⟨rfl, rfl⟩ := List.cons.inj hcontexts
        exact Or.inl ⟨[], .substitution parens', hkind, rfl⟩
      · obtain ⟨-, rfl⟩ := List.cons.inj hcontexts
        exact Or.inl ⟨.substitution parens' :: above, c', hkind, rfl⟩

/-- In a sequence of stacks a context is opened on the `i`-th of them, which is `outer`, and stays
open on it up to the `j`-th. -/
structure OpenFrom (history : List (List Context)) (c : Context) (outer : List Context) (i j : Nat) :
    Prop where
  lt : i < j
  before : history[i]? = some outer
  after : history[i + 1]? = some (c.opened :: outer)
  held : ∀ k, i < k → k ≤ j → ∃ contexts, history[k]? = some contexts ∧ Holds c outer contexts

variable {history : List (List Context)} {outer contexts' : List Context} {i j : Nat}

theorem move_of_getElem? (hchain : history.IsChain Move) (h : history[i]? = some contexts)
    (h' : history[i + 1]? = some contexts') : Move contexts contexts' := by
  obtain ⟨hi, rfl⟩ := List.getElem?_eq_some_iff.mp h
  obtain ⟨hi', rfl⟩ := List.getElem?_eq_some_iff.mp h'
  exact hchain.getElem i hi'

theorem holds_opened (c : Context) (outer : List Context) : Holds c outer (c.opened :: outer) :=
  ⟨[], c.opened, c.opened_opened, rfl⟩

theorem OpenFrom.opening (h : history[i]? = some outer)
    (h' : history[i + 1]? = some (c.opened :: outer)) : OpenFrom history c outer i (i + 1) := by
  refine ⟨Nat.lt_succ_self i, h, h', fun k hlt hle => ?_⟩
  obtain rfl : k = i + 1 := by omega
  exact ⟨_, h', holds_opened c outer⟩

theorem OpenFrom.succ (hopen : OpenFrom history c outer i j) (h : history[j + 1]? = some contexts)
    (hholds : Holds c outer contexts) : OpenFrom history c outer i (j + 1) := by
  refine ⟨Nat.lt_succ_of_lt hopen.lt, hopen.before, hopen.after, fun k hlt hle => ?_⟩
  rcases Nat.lt_or_ge j k with hjk | hkj
  · obtain rfl : k = j + 1 := by omega
    exact ⟨contexts, h, hholds⟩
  · exact hopen.held k hlt hkj

/-- **Every open context has been opened**, on the very stack that is below it. -/
theorem exists_openFrom (hchain : history.IsChain Move) (hhead : history.head? = some [])
    (h : history[j]? = some contexts) (hholds : Holds c outer contexts) :
    ∃ i, OpenFrom history c outer i j := by
  induction j generalizing contexts with
  | zero =>
      rw [← List.head?_eq_getElem?, hhead] at h
      obtain rfl := Option.some.inj h
      obtain ⟨above, c', -, hnil⟩ := hholds
      simp at hnil
  | succ j ih =>
      obtain ⟨earlier, hearlier⟩ : ∃ earlier, history[j]? = some earlier := by
        obtain ⟨hj, -⟩ := List.getElem?_eq_some_iff.mp h
        exact ⟨_, List.getElem?_eq_getElem (Nat.lt_of_succ_lt hj)⟩
      rcases (move_of_getElem? hchain hearlier h).holds_before hholds with hheld | ⟨rfl, rfl⟩
      · obtain ⟨i, hopen⟩ := ih hearlier hheld
        exact ⟨i, hopen.succ h hholds⟩
      · exact ⟨j, .opening hearlier h⟩

/-- **An open context stays until it is closed**, and then the stack is the one it was opened on. -/
theorem openFrom_or_exists_closing (hchain : history.IsChain Move)
    (h : history[i]? = some outer) (h' : history[i + 1]? = some (c.opened :: outer)) {k : Nat}
    (hik : i < k) (hk : k < history.length) :
    OpenFrom history c outer i k ∨ ∃ j < k, OpenFrom history c outer i j ∧
      history[j]? = some (c.opened :: outer) ∧ history[j + 1]? = some outer := by
  induction k with
  | zero => exact absurd hik (Nat.not_lt_zero i)
  | succ k ih =>
      rcases Nat.lt_or_ge i k with hlt | hge
      · rcases ih hlt (Nat.lt_of_succ_lt hk) with hopen | ⟨j, hjk, hclosing⟩
        · obtain ⟨contexts, hcontexts, hheld⟩ := hopen.held k hlt (Nat.le_refl k)
          have hnext := List.getElem?_eq_getElem hk
          rcases (move_of_getElem? hchain hcontexts hnext).holds_after hheld with
            hheld | ⟨rfl, hrestored⟩
          · exact Or.inl (hopen.succ hnext hheld)
          · rw [hrestored] at hnext
            exact Or.inr ⟨k, Nat.lt_succ_self k, hopen, hcontexts, hnext⟩
        · exact Or.inr ⟨j, Nat.lt_succ_of_lt hjk, hclosing⟩
      · obtain rfl : i = k := by omega
        exact Or.inl (.opening h h')

end

/-! ## Main statement -/

/-- **Contexts nest.** Before every character of a script and at the end of every line the stack
alternates between double quotes and code: single quotes of both kinds stand on top only, code stands
directly on double quotes, and double quotes never do. When a context is closed, the stack is the one
that the context was opened on, and it has been below the context all the time. When one is opened,
it stays in the stack to the end or up to where it is closed, which gives that stack back. -/
theorem contexts_nest (raws : List (List Char)) :
    (∀ (text : String) (p : Place) (r : Reader), Text.lines text.toList = raws → p.At text r →
      r.contexts ∈ Open.nothing.history raws) ∧
    (∀ contexts ∈ Open.nothing.history raws, Alternates contexts ∧
      ∀ above c below, contexts = above ++ c :: below →
        (c = .single ∨ c = .ansi → above = []) ∧
        (c.isCode = true → below.head? = some .double) ∧
        (c = .double → below.head? ≠ some .double)) ∧
    (∀ j contexts contexts', (Open.nothing.history raws)[j]? = some contexts →
      (Open.nothing.history raws)[j + 1]? = some contexts' → contexts'.length < contexts.length →
        ∃ c i, contexts = c :: contexts' ∧ c.opened = c ∧
          OpenFrom (Open.nothing.history raws) c contexts' i j) ∧
    ∀ i contexts contexts', (Open.nothing.history raws)[i]? = some contexts →
      (Open.nothing.history raws)[i + 1]? = some contexts' → contexts.length < contexts'.length →
        ∃ c, contexts' = c :: contexts ∧ c.opened = c ∧
          ∀ k, i < k → k < (Open.nothing.history raws).length →
            OpenFrom (Open.nothing.history raws) c contexts i k ∨
            ∃ j < k, OpenFrom (Open.nothing.history raws) c contexts i j ∧
              (Open.nothing.history raws)[j]? = some contexts' ∧
              (Open.nothing.history raws)[j + 1]? = some contexts := by
  have hchain := Open.nothing.isChain_history raws
  have hhead := Open.nothing.head?_history raws
  refine ⟨?_, fun contexts hmem => ?_, fun j contexts contexts' h h' hlength => ?_,
    fun i contexts contexts' h h' hlength => ?_⟩
  · rintro text p r rfl hat
    exact hat.mem_history
  · have hnested := nested_of_mem_history hmem
    refine ⟨hnested.alternates, ?_⟩
    rintro above c below rfl
    refine ⟨?_, fun hc => (Context.sitsOn_of_isCode hc).mp hnested.sitsOn, ?_⟩
    · rintro (rfl | rfl)
      · exact hnested.eq_nil_of_quotation rfl (by decide)
      · exact hnested.eq_nil_of_quotation rfl (by decide)
    · rintro rfl hbelow
      obtain ⟨outer, rfl⟩ := List.head?_eq_some_iff.mp hbelow
      have hcode := (Context.sitsOn_of_not_isCode rfl).mp hnested.sitsOn
      cases hcode
  · obtain ⟨c, rfl, hnew⟩ := (move_of_getElem? hchain h h').of_length_lt hlength
    have hholds := holds_opened c contexts'
    rw [hnew] at hholds
    obtain ⟨i, hopen⟩ := exists_openFrom hchain hhead h hholds
    exact ⟨c, i, rfl, hnew, hopen⟩
  · obtain ⟨c, rfl, hnew⟩ := (move_of_getElem? hchain h h').of_lt_length hlength
    rw [← hnew] at h'
    refine ⟨c, rfl, hnew, fun k hik hk => ?_⟩
    have hcases := openFrom_or_exists_closing hchain h h' hik hk
    rwa [hnew] at hcases

/-! ## A quotation inside parentheses -/

/-- A substitution over two lines with a quotation inside parentheses. -/
def quotedArgument : List (List Char) := ["\"$(f (\"a".toList, "b\"))\"".toList]

/-- The end of the quotation gives the open parenthesis back. -/
theorem contexts_nest_quotedArgument :
    (Open.nothing.history quotedArgument)[10]? = some [.double, .substitution 1, .double] ∧
    Alternates [.double, .substitution 1, .double] ∧
    (Open.nothing.history quotedArgument)[11]? = some [.substitution 1, .double] ∧
    ∃ i, OpenFrom (Open.nothing.history quotedArgument) .double [.substitution 1, .double] i 10 := by
  have hbefore : (Open.nothing.history quotedArgument)[10]? =
      some [.double, .substitution 1, .double] := by decide +kernel
  have hbehind : (Open.nothing.history quotedArgument)[11]? =
      some [.substitution 1, .double] := by decide +kernel
  obtain ⟨-, hshape, hclosing, -⟩ := contexts_nest quotedArgument
  obtain ⟨c, i, hc, -, hopen⟩ := hclosing 10 _ _ hbefore hbehind (by decide)
  obtain rfl := (List.cons.inj hc).1
  exact ⟨hbefore, (hshape _ (List.mem_of_getElem? hbefore)).1, hbehind, i, hopen⟩

end ShellIndex.Source
