import ShellIndex.Proofs.Call.ArrayLiteral
import ShellIndex.Proofs.Catalog.NextLine
import ShellIndex.Proofs.Source.Substitution
import ShellIndex.Proofs.Text.LastLine

set_option autoImplicit false

/-! # Dependencies of array literals

The plain words of an array literal should be no dependencies, and the lines below it should be
read as if it were not there. The lines below always are. A plain word is listed as a command if it
starts a line behind a substitution, since the literal is taken for ended at the parenthesis of the
substitution and not at its own.
-/

namespace ShellIndex.Program

open Text Source Call

/-! ## A block of lines in a script -/

theorem wholeLines_append_lineFeed (s : List Char) : wholeLines (s ++ ['\n']) = s ++ ['\n'] := by
  simp [wholeLines]

/-- The numbers of the lines are not part of their code. -/
theorem map_code_scan_eq (o : Open) (m n : Nat) (raws : List (List Char)) :
    (o.scan m raws).map Line.code = (o.scan n raws).map Line.code := by
  have hviews : ∀ number, (o.scan number raws).map Line.code =
      (o.course raws).views.map Prod.fst := by
    intro number
    rw [o.views_course number, List.map_map]
    rfl
  rw [hviews m, hviews n]

theorem mem_code_read {o : Open} {raw : List Char} {c : Char} (hc : c ∈ (o.read raw).code) :
    c ∈ raw ∨ c = ' ' := by
  rw [Open.read] at hc
  split at hc
  · exact Or.inr (mem_mask hc)
  · obtain ⟨shown, hcode, hshown⟩ := (Reader.start o.contexts).exists_code_run raw
    have hstart : (Reader.start o.contexts).code = [] := rfl
    refine hshown c ?_
    rw [hstart, List.append_nil] at hcode
    rw [← hcode]
    exact List.mem_reverse.mp hc

theorem no_lineFeed_code {o : Open} {number : Nat} {raws : List (List Char)}
    (hraws : ∀ raw ∈ raws, '\n' ∉ raw) :
    ∀ code ∈ (o.scan number raws).map Line.code, '\n' ∉ code := by
  induction raws generalizing o number with
  | nil => simp [Open.scan]
  | cons raw raws ih =>
      intro code hcode hmem
      rw [Open.scan, List.map_cons, List.mem_cons] at hcode
      rcases hcode with rfl | hcode
      · rcases mem_code_read hmem with h | h
        · exact hraws raw (by simp) h
        · exact absurd h (by decide)
      · exact ih (fun raw' h => hraws raw' (List.mem_cons_of_mem raw h)) code hcode hmem

/-- The lines around a block. Nothing is open above it, and commands are read there. -/
structure Surroundings where
  above : List Char
  below : List Char
  whole_lines : wholeLines above = above
  nothing_open : Open.nothing.after (lines above) = Open.nothing
  in_commands : inCommands (trackerBehind (lines above)).cases = true
  not_in_array : (trackerBehind (lines above)).inArray = false

namespace Surroundings
variable (p : Surroundings)

/-- A script with the block on lines of its own. -/
def around (block : List Char) : String := String.ofList (p.above ++ (block ++ '\n' :: p.below))

/-- The tracker at the start of the block. -/
def tracker : Tracker := trackerBehind (lines p.above)

/-- Whether a command is expected there. -/
def expected : Bool := p.tracker.startLine.atCommand

/-- The tracker at the start of a command below. -/
def trackerBelow : Tracker := ⟨p.tracker.cases, true, false, false⟩

def callsAbove : List String := callsOf (String.ofList p.above)

def callsBelow : List String :=
  p.trackerBelow.calls ((scan (String.ofList p.below)).map Line.code)

theorem reads_start :
    Reads p.tracker.cases true p.expected p.tracker.startLine :=
  ⟨⟨⟨rfl, rfl, p.not_in_array⟩, rfl, rfl, rfl, rfl, rfl⟩, fun _ => rfl⟩

/-- The lines below a block that leads out of command position start as if it were not there. -/
theorem resume_below {k : Cursor} {before : List Char} (hk : Reads p.tracker.cases true false k)
    (hbefore : '\\' ∉ before) (s : List Char) :
    k.resume before ('\n' :: s) = p.trackerBelow.calls (lines s) := by
  have hline : (Tracker.endLine k before.reverse).startLine = p.trackerBelow.startLine := by
    rw [startLine_endLine k hbefore, hk.1.cases_eq, hk.1.inArray_eq]
    rfl
  rw [k.resume_lineFeed before, hline, Tracker.calls_lines]

/-- **A block that leads back out of what it leads into** is read on its own, and so is what stands
around it. -/
theorem callsOf_around {block view : List Char} {calls : List String}
    (hshows : Shows [] none block view [])
    (htracks : Tracks Anything (Reads p.tracker.cases true p.expected) view
      (Reads p.tracker.cases true false) calls) :
    callsOf (p.around block) = p.callsAbove ++ (calls ++ p.callsBelow) := by
  have hblock : Shows [] none (block ++ ['\n']) (view ++ ['\n']) [] := hshows.append Shows.lineFeed
  have hlines : lines (p.above ++ (block ++ '\n' :: p.below)) =
      lines p.above ++ (lines (block ++ ['\n']) ++ lines p.below) := by
    have hbelow := lines_wholeLines_append (block ++ ['\n']) p.below
    have habove := lines_wholeLines_append p.above (block ++ '\n' :: p.below)
    rw [wholeLines_append_lineFeed, List.append_assoc, List.singleton_append] at hbelow
    rw [p.whole_lines] at habove
    rw [habove, hbelow]
  -- The lines below come to the calls of some text, which the tracker reads behind the block.
  have hfree : ∀ code ∈ (Open.nothing.scan 1 (lines p.below)).map Line.code, '\n' ∉ code :=
    no_lineFeed_code fun raw hraw => no_lineFeed_of_mem_linesAfter (by simp) hraw
  obtain ⟨s, hs⟩ := exists_lines_eq hfree
  have hcode : (scan (p.around block)).map Line.code =
      (Open.nothing.scan 1 (lines p.above)).map Line.code ++ lines (view ++ '\n' :: s) := by
    have hview : (Open.nothing.scan 1 (lines (block ++ ['\n']))).map Line.code =
        lines (view ++ ['\n']) := by
      have hcode := hblock.map_code_scan.1
      rwa [scan, String.toList_ofList] at hcode
    have hsplit := lines_wholeLines_append (view ++ ['\n']) s
    rw [wholeLines_append_lineFeed, List.append_assoc, List.singleton_append] at hsplit
    rw [scan, around, String.toList_ofList, hlines, Open.scan_append, p.nothing_open,
      Open.scan_append, hblock.map_view_scan.2, List.map_append, List.map_append,
      map_code_scan_eq Open.nothing _ 1 (lines (block ++ ['\n'])), hview,
      map_code_scan_eq Open.nothing _ 1 (lines p.below), ← hs, hsplit]
  have hbelow : p.callsBelow = p.trackerBelow.calls (lines s) := by
    rw [callsBelow, scan, String.toList_ofList, hs]
  have habove : p.callsAbove =
      Tracker.start.calls ((Open.nothing.scan 1 (lines p.above)).map Line.code) := by
    rw [callsAbove, callsOf, scan, String.toList_ofList]
  calc callsOf (p.around block)
      = p.callsAbove ++ p.tracker.calls (lines (view ++ '\n' :: s)) := by
        rw [callsOf, hcode, Tracker.calls_append, habove]
        rfl
    _ = p.callsAbove ++ (calls ++ p.callsBelow) := by
        rw [Tracker.calls_lines, hbelow]
        congr 1
        exact htracks _ [] _ _ p.reads_start (by simp) trivial fun k before hk hbefore =>
          p.resume_below hk hbefore s

/-- The first word below a block is a dependency if it names a command. -/
theorem mem_functions_of_below {block : List Char} {calls : List String}
    (hcalls : callsOf (p.around block) = p.callsAbove ++ (calls ++ p.callsBelow))
    {next : List Char} {more : List (List Char)} (hbelow : lines p.below = next :: more)
    {w : String} (hw : (Lexeme.ofCode (Open.nothing.read next).code).head? = some (.word w false))
    (hname : Cursor.isCommandName w = true) {catalog : Catalog} {file : String}
    (hdefined : ∃ f, f ≠ file ∧ catalog.Defines w f) :
    w ∈ (catalog.dependenciesOf file (p.around block)).functions := by
  have hexpects : p.trackerBelow.startLine.expectsCommand = true := p.in_commands
  have hline : w ∈ (p.trackerBelow.readLine (Open.nothing.read next).code).2 :=
    mem_readLine rfl hexpects hw hname
  have hmem : w ∈ p.callsBelow := by
    rw [callsBelow, scan, String.toList_ofList, hbelow, Open.scan, List.map_cons, Tracker.calls]
    exact List.mem_append_left _ hline
  rw [catalog.mem_functions_dependenciesOf, hcalls]
  exact ⟨List.mem_append_right _ (List.mem_append_right _ hmem), hdefined⟩

end Surroundings

/-! ## The words of a literal -/

section
variable {ended starts : Bool} {n : String}

def Element.isWord : Element → Bool
  | .word _ => true
  | _ => false

/-- What the substitutions among some elements call, as far as it is found. -/
def calledAmong (ended : Bool) : List (List Blank × Element) → List String
  | [] => []
  | item :: items => item.2.called ended ++ calledAmong (ended || item.2.substitutes) items

/-- Among these elements a word starts a line behind a substitution. -/
def WordAmong (ended : Bool) (elements : List (List Blank × Element)) (n : String) : Prop :=
  ∃ before gap w behind, elements = before ++ (gap, .word w) :: behind ∧ .lineFeed ∈ gap ∧
    (ended = true ∨ ∃ item ∈ before, item.2.substitutes = true) ∧ n = w.text

theorem Element.mem_listed (e : Element) : n ∈ e.listed ended starts ↔
    n ∈ e.called ended ∨ ∃ w, e = .word w ∧ ended = true ∧ starts = true ∧ n = w.text := by
  cases e with
  | word w =>
      rw [Element.listed, Element.called_word]
      cases ended <;> cases starts <;> simp
  | _ => simp [Element.listed]

/-- **Among the elements of a literal** the commands of substitutions are listed, and the words that
start a line behind a substitution. -/
theorem mem_listedAmong (elements : List (List Blank × Element)) :
    n ∈ listedAmong ended false elements ↔
      n ∈ calledAmong ended elements ∨ WordAmong ended elements n := by
  induction elements generalizing ended with
  | nil => simp [listedAmong, calledAmong, WordAmong]
  | cons item items ih =>
      obtain ⟨gap, e⟩ := item
      rw [listedAmong, calledAmong, List.mem_append, List.mem_append, ih, e.mem_listed,
        Bool.false_or, List.contains_iff_mem]
      -- A word among them is the first element, or it stands behind the first, which may be what
      -- ends the literal.
      constructor
      · rintro ((hcalled | ⟨w, rfl, hended, hgap, hn⟩) | (hcalled | hword))
        · exact Or.inl (Or.inl hcalled)
        · exact Or.inr ⟨[], gap, w, items, rfl, hgap, Or.inl hended, hn⟩
        · exact Or.inl (Or.inr hcalled)
        · obtain ⟨before, gap', w, behind, rfl, hgap, hended, hn⟩ := hword
          refine Or.inr ⟨(gap, e) :: before, gap', w, behind, rfl, hgap, ?_, hn⟩
          simpa [or_assoc] using hended
      · rintro ((hcalled | hcalled) | ⟨before, gap', w, behind, helements, hgap, hended, hn⟩)
        · exact Or.inl (Or.inl hcalled)
        · exact Or.inr (Or.inl hcalled)
        · cases before with
          | nil =>
              obtain ⟨hitem, rfl⟩ := List.cons.inj helements
              obtain ⟨rfl, rfl⟩ := Prod.mk.inj hitem
              exact Or.inl (Or.inr ⟨w, rfl, by simpa using hended, hgap, hn⟩)
          | cons item before =>
              obtain ⟨rfl, rfl⟩ := List.cons.inj helements
              refine Or.inr (Or.inr ⟨before, gap', w, behind, rfl, hgap, ?_, hn⟩)
              simpa [or_assoc] using hended

/-- A word neither calls anything nor ends a literal. -/
theorem calledAmong_withoutWords (elements : List (List Blank × Element)) :
    calledAmong ended (elements.filter fun item => !item.2.isWord) =
      calledAmong ended elements := by
  induction elements generalizing ended with
  | nil => rfl
  | cons item items ih =>
      obtain ⟨gap, e⟩ := item
      cases e with
      | word w =>
          rw [List.filter_cons_of_neg (by simp [Element.isWord]), ih, calledAmong,
            Element.called_word, Element.substitutes_word, Bool.or_false, List.nil_append]
      | _ => rw [List.filter_cons_of_pos (by simp [Element.isWord]), calledAmong, ih, calledAmong]

end

namespace ArrayLiteral
variable (a : ArrayLiteral)

/-- The text of a literal. -/
def text : List Char := a.print id

/-- The literal without its plain words. -/
def withoutWords : ArrayLiteral where
  front := a.front
  target := a.target
  appends := a.appends
  elements := a.elements.filter fun item => !item.2.isWord
  apart := by
    intro item hitem
    cases helements : a.elements with
    | nil => simp [helements] at hitem
    | cons first items =>
        have hsub : ∀ item ∈ items.filter fun item => !item.2.isWord, item.1 ≠ [] := by
          intro item hitem
          refine a.apart item ?_
          rw [helements]
          exact (List.mem_filter.mp hitem).1
        rw [helements, List.filter_cons] at hitem
        split at hitem
        · exact hsub item hitem
        · exact hsub item (List.mem_of_mem_tail hitem)
  closing := a.closing

/-- A word of the literal that starts a line behind a substitution. -/
def Misread (n : String) : Prop := WordAmong false a.elements n

theorem mem_listed_iff (expected : Bool) (n : String) : n ∈ a.listed expected ↔
    n ∈ a.withoutWords.listed expected ∨ a.Misread n := by
  have hwords : ¬ WordAmong false a.withoutWords.elements n := by
    rintro ⟨before, gap, w, behind, helements, -⟩
    have hmem : (gap, Element.word w) ∈ a.withoutWords.elements := by simp [helements]
    simpa [Element.isWord] using (List.mem_filter.mp hmem).2
  have hcalled : n ∈ calledAmong false a.withoutWords.elements ↔
      n ∈ calledAmong false a.elements := by
    rw [withoutWords, calledAmong_withoutWords]
  rw [listed, listed, List.mem_append, List.mem_append, mem_listedAmong, mem_listedAmong,
    hcalled, Misread, or_iff_left hwords, or_assoc]
  rfl

/-- **A literal among other lines** lists what its elements say, and the lines below are read as if
it were not there. -/
theorem callsOf_literal (p : Surroundings) : callsOf (p.around a.text) =
    p.callsAbove ++ (a.listed p.expected ++ p.callsBelow) :=
  p.callsOf_around a.shows (a.tracks p.in_commands)

/-- **The plain words of a literal change nothing** exactly if none of them starts a line behind a
substitution, as far as other files define what is at stake. The first word below the literal names
a command in any case. -/
theorem dependenciesOf_literal (p : Surroundings) (catalog : Catalog) (file : String) :
    callsOf (p.around a.text) = p.callsAbove ++ (a.listed p.expected ++ p.callsBelow) ∧
      (catalog.dependenciesOf file (p.around a.text) =
          catalog.dependenciesOf file (p.around a.withoutWords.text) ↔
        ∀ n, a.Misread n → n ∈ callsOf (p.around a.withoutWords.text) ∨
          ∀ f, catalog.Defines n f → f = file) ∧
      ∀ next more w, lines p.below = next :: more →
        (Lexeme.ofCode (Open.nothing.read next).code).head? = some (.word w false) →
          Cursor.isCommandName w = true → (∃ f, f ≠ file ∧ catalog.Defines w f) →
            w ∈ (catalog.dependenciesOf file (p.around a.text)).functions := by
  have hcalls : ∀ n, n ∈ callsOf (p.around a.text) ↔
      n ∈ callsOf (p.around a.withoutWords.text) ∨ a.Misread n := by
    intro n
    rw [callsOf_literal, callsOf_literal]
    simp only [List.mem_append, a.mem_listed_iff p.expected n]
    constructor
    · rintro (habove | (hlisted | hword) | hbelow)
      · exact Or.inl (Or.inl habove)
      · exact Or.inl (Or.inr (Or.inl hlisted))
      · exact Or.inr hword
      · exact Or.inl (Or.inr (Or.inr hbelow))
    · rintro ((habove | hlisted | hbelow) | hword)
      · exact Or.inl habove
      · exact Or.inr (Or.inl (Or.inl hlisted))
      · exact Or.inr (Or.inr hbelow)
      · exact Or.inr (Or.inl (Or.inr hword))
  refine ⟨a.callsOf_literal p, ?_, fun next more w hbelow hw hname hdefined =>
    p.mem_functions_of_below (a.callsOf_literal p) hbelow hw hname hdefined⟩
  rw [catalog.dependenciesOf_eq_iff]
  constructor
  · intro hsame n hword
    rcases catalog.defined_elsewhere_or file n with ⟨f, hne, hf⟩ | hdefined
    · exact Or.inl ((hsame n f hne hf).mp ((hcalls n).mpr (Or.inr hword)))
    · exact Or.inr hdefined
  · intro hwords n f hne hf
    rw [hcalls]
    refine ⟨fun h => ?_, Or.inl⟩
    rcases h with hcall | hword
    · exact hcall
    · exact (hwords n hword).resolve_right fun hdefined => hne (hdefined f hf)

/-! ## Two literals

The elements of `steps=(a "b c" $v 'd')` are no calls, on however many lines they stand. In
`steps=($(list x) warn)` the last one is listed if it starts a line.
-/

theorem literal_samples :
    ∃ (harmless harmful : ArrayLiteral) (p q : Surroundings),
      p.around harmless.text = "steps=(a \"b c\"\n  $v 'd')\nwarn x\n" ∧
      q.around harmful.text = "steps=($(list x)\n  warn)\nrun y\n" ∧
      (∀ (catalog : Catalog) (file : String), catalog.dependenciesOf file (p.around harmless.text) =
        catalog.dependenciesOf file (p.around harmless.withoutWords.text)) ∧
      "warn" ∈ (Catalog.warnOnly.dependenciesOf "main.sh" (p.around harmless.text)).functions ∧
      Catalog.warnOnly.dependenciesOf "main.sh" (q.around harmful.text) ≠
        Catalog.warnOnly.dependenciesOf "main.sh" (q.around harmful.withoutWords.text) := by
  let a : PlainWord := ⟨"a", by decide, by decide +kernel, by decide⟩
  let x : PlainWord := ⟨"x", by decide, by decide +kernel, by decide⟩
  let warn : PlainWord := ⟨"warn", by decide, by decide +kernel, by decide⟩
  let list : Name := ⟨⟨"list", by decide, by decide +kernel, by decide⟩, by decide⟩
  let v : Variable := ⟨"v", by decide, List.forall_mem_singleton.mpr (Or.inl (by decide))⟩
  let steps : Target := ⟨"steps".toList, by decide, by decide, by decide⟩
  let harmless : ArrayLiteral :=
    ⟨[], steps, false, [([], .word a), ([.space], .double (.literal ⟨"b c".toList, by decide⟩)),
      ([.lineFeed, .space, .space], .plainReference v),
      ([.space], .single ⟨"d".toList, by decide⟩)], by simp, []⟩
  let harmful : ArrayLiteral :=
    ⟨[], steps, false, [([], .substitution (.call list (.more (.word x) .none))),
      ([.lineFeed, .space, .space], .word warn)], by simp, []⟩
  let p : Surroundings := ⟨[], "warn x\n".toList, rfl, rfl, rfl, rfl⟩
  let q : Surroundings := ⟨[], "run y\n".toList, rfl, rfl, rfl, rfl⟩
  have hdefined : ∃ f, f ≠ "main.sh" ∧ Catalog.warnOnly.Defines "warn" f :=
    ⟨"warn.sh", by decide, Catalog.defines_warnOnly.mpr ⟨rfl, rfl⟩⟩
  have hbelow : lines p.below = "warn x".toList :: [] := by decide +kernel
  refine ⟨harmless, harmful, p, q, by decide +kernel, by decide +kernel, fun catalog file => ?_, ?_,
    fun hsame => ?_⟩
  · refine (harmless.dependenciesOf_literal p catalog file).2.1.mpr ?_
    rintro n ⟨before, gap, w, behind, helements, -, hended, -⟩
    have hnone : ∀ item ∈ harmless.elements, item.2.substitutes = false := by
      simp [harmless, Element.substitutes, DoubleText.substitutes]
    obtain ⟨item, hitem, hsubstitutes⟩ := hended.resolve_left (by decide)
    rw [hnone item (by simp [helements, hitem])] at hsubstitutes
    cases hsubstitutes
  · exact (harmless.dependenciesOf_literal p _ _).2.2 _ _ "warn" hbelow (by decide +kernel)
      (by decide) hdefined
  · have hwarn : harmful.Misread "warn" :=
      ⟨[([], .substitution (.call list (.more (.word x) .none)))], _, warn, [], rfl, by decide,
        Or.inr ⟨_, List.mem_singleton_self _, rfl⟩, rfl⟩
    have htext : q.around harmful.withoutWords.text = "steps=($(list x))\nrun y\n" := by
      decide +kernel
    rcases (harmful.dependenciesOf_literal q _ _).2.1.mp hsame "warn" hwarn with hcall | hfile
    · rw [htext] at hcall
      exact absurd hcall (by decide +kernel)
    · obtain ⟨f, hne, hf⟩ := hdefined
      exact hne (hfile f hf)

theorem warn_behind_substitution :
    "warn" ∉ (Catalog.warnOnly.dependenciesOf "main.sh" "steps=(list\n  warn)\n").functions ∧
      "warn" ∈
        (Catalog.warnOnly.dependenciesOf "main.sh" "steps=($(list x)\n  warn)\n").functions := by
  rw [Catalog.warn_mem_functions_dependenciesOf, Catalog.warn_mem_functions_dependenciesOf]
  decide +kernel

end ArrayLiteral

end ShellIndex.Program
