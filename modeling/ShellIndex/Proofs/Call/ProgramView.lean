import ShellIndex.Proofs.Call.Program

set_option autoImplicit false

/-! # What a program shows

The masked view of a program is the program itself with its literal text blanked
(`Sequence.view`): the scanner shows every word and every mark of it, in substitutions of any
depth, and leaves it in the contexts in which it found it (`shows_sequence`).
-/

namespace ShellIndex.Program

open Text Source

/-- Literal text in the masked view: only its line ends are left. -/
def blankOut : List Char → List Char
  | [] => []
  | c :: s =>
      if c = '\r' ∧ s.head? = some '\n' then blankOut s else maskInLine c ++ blankOut s

/-- The masked view of a program. -/
def Sequence.view (s : Sequence) : List Char := s.print blankOut

/-! ## Words -/

theorem isInert_of_isPlain {c : Char} (h : isPlain c = true) : isInert c = true := by
  simp only [isPlain, Bool.or_eq_true, beq_iff_eq] at h
  rcases h with (((h | rfl) | rfl) | rfl) | rfl
  · exact isInert_of_isAlphanumeric h
  all_goals decide

section
variable {contexts outer : List Context} {last : Option Char}

theorem PlainWord.shows (w : PlainWord) (hcode : readsCode contexts = true) :
    Shows contexts last w.text.toList w.text.toList contexts :=
  Shows.inert hcode fun c hc => isInert_of_isPlain (List.all_eq_true.mp w.plain c hc)

theorem Variable.shows (v : Variable) (hcode : readsCode contexts = true) :
    Shows contexts last v.text.toList v.text.toList contexts := by
  refine Shows.inert hcode fun c hc => ?_
  rcases v.plain c hc with h | rfl
  · exact isInert_of_isAlphanumeric h
  · decide

/-- A fixed text without quotes and parentheses. -/
theorem shows_marks {s : List Char} (hcode : readsCode contexts = true)
    (h : s.all isInert = true) : Shows contexts last s s contexts :=
  Shows.inert hcode (List.all_eq_true.mp h)

theorem shows_flatMap {α : Type} {f : α → List Char}
    (hf : ∀ a (last : Option Char), Shows contexts last (f a) (f a) contexts) (l : List α) :
    Shows contexts last (l.flatMap f) (l.flatMap f) contexts := by
  induction l generalizing last with
  | nil => exact Shows.nil
  | cons a l ih =>
      rw [List.flatMap_cons]
      exact (hf a last).append ih

theorem shows_wrapperText (hcode : readsCode contexts = true)
    (w : Wrapper × List WrapperOption) :
    Shows contexts last (wrapperText w) (wrapperText w) contexts := by
  have hname : Shows contexts last w.1.text.toList w.1.text.toList contexts :=
    shows_marks hcode (by cases w.1 <;> decide)
  refine (hname.append (shows_marks hcode (by decide))).append (shows_flatMap (fun o last => ?_) _)
  exact (o.toPlainWord.shows hcode).append (shows_marks hcode (by decide))

theorem shows_headerText (hcode : readsCode contexts = true) (keyword : Bool) (name : Name) :
    Shows contexts last (headerText keyword name) (headerText keyword name) contexts := by
  have hname : ∀ last : Option Char,
      Shows contexts last name.text.toList name.text.toList contexts :=
    fun _ => name.toPlainWord.shows hcode
  cases keyword with
  | true =>
      have hkeyword : Shows contexts last "function ".toList "function ".toList contexts :=
        shows_marks hcode (by decide)
      exact (hkeyword.append (hname _)).append (shows_marks hcode (by decide))
  | false =>
      have hparens : ∀ last : Option Char, Shows contexts last "() \x7b ".toList
          "() \x7b ".toList (closeParen (openParen contexts)) := by
        intro last
        refine (Shows.openParen hcode).append ?_
        refine (Shows.closeParen (readsCode_openParen hcode)).append ?_
        exact shows_marks (by rw [closeParen_openParen, hcode]) (by decide)
      rw [closeParen_openParen] at hparens
      exact (hname last).append (hparens _)

/-- In plain code a pattern ends without its opening parenthesis as well. -/
theorem shows_patternText (opened : Bool) (pattern : PlainWord) (alternatives : List PlainWord) :
    Shows [] last (patternText opened pattern alternatives)
      (patternText opened pattern alternatives) [] := by
  have hopen : Shows [] last (if opened then " (".toList else " ".toList)
      (if opened then " (".toList else " ".toList) [] := by
    cases opened with
    | true => exact (shows_marks (s := [' ']) rfl (by decide)).append (Shows.openParen rfl)
    | false => exact shows_marks rfl (by decide)
  have hmore : ∀ last, Shows [] last (alternatives.flatMap fun w => '|' :: w.text.toList)
      (alternatives.flatMap fun w => '|' :: w.text.toList) [] := fun last =>
    shows_flatMap (fun w _ => (shows_marks (s := ['|']) rfl (by decide)).append (w.shows rfl)) _
  exact ((hopen.append (pattern.shows rfl)).append (hmore _)).append
    ((Shows.closeParen rfl).append (shows_marks (s := [' ']) rfl (by decide)))

/-- In these contexts the scanner masks the character, whatever follows it. -/
def Masks (contexts : List Context) (c : Char) : Prop :=
  ∀ (r : Reader) (rest : List Char) (last : Option Char), r.At contexts last → c ≠ '\n' →
    r.stepFree c rest = r.hide c

/-- One masked character more. A carriage return before a line feed belongs to the line end and is
in no line of the view. -/
theorem resume_blankOut_cons (hcode : readsCode contexts = false) {c : Char}
    {s rest more : List Char} {r : Reader} {stop : Open} (hat : r.At contexts last)
    (hrest : rest.head? ≠ some '\n') (hstep : c ≠ '\n' → r.stepFree c (s ++ rest) = r.hide c)
    (hs : ∀ {r' : Reader} {last' : Option Char}, r'.At contexts last' →
      lastAfter last' s = lastAfter last (c :: s) →
      r'.resume (s ++ rest) = Course.plain r'.code (blankOut s ++ more) stop) :
    r.resume (c :: s ++ rest) = Course.plain r.code (blankOut (c :: s) ++ more) stop := by
  by_cases hreturn : c = '\r' ∧ s.head? = some '\n'
  · obtain ⟨rfl, hhead⟩ := hreturn
    have hblank : blankOut ('\r' :: s) = blankOut s := by simp [blankOut, hhead]
    obtain ⟨s, rfl⟩ := List.head?_eq_some_iff.mp hhead
    rw [hblank, List.cons_append, List.cons_append, Reader.resume_return]
    exact hs hat rfl
  · have hblank : blankOut (c :: s) = maskInLine c ++ blankOut s := by simp [blankOut, hreturn]
    rw [hblank, List.cons_append, List.append_assoc]
    refine resume_hide hat hcode ?_ hstep fun r' hat' => hs hat' rfl
    intro hr hhead
    cases s with
    | nil => exact hrest hhead
    | cons d s => exact hreturn ⟨hr, by simpa using hhead⟩

/-- Masked text is blanked, whatever its line ends, as long as no line feed follows it. -/
theorem resume_blankOut (hcode : readsCode contexts = false) {s : List Char}
    (hs : ∀ c ∈ s, Masks contexts c) {r : Reader} {rest more : List Char} {stop : Open}
    (hat : r.At contexts last) (hrest : rest.head? ≠ some '\n')
    (hk : ∀ r' : Reader, r'.At contexts (lastAfter last s) →
      r'.resume rest = Course.plain r'.code more stop) :
    r.resume (s ++ rest) = Course.plain r.code (blankOut s ++ more) stop := by
  induction s generalizing r last with
  | nil => exact hk r hat
  | cons c s ih =>
      refine resume_blankOut_cons hcode hat hrest (hs c (by simp) r _ last hat) ?_
      intro r' last' hat' hlast
      refine ih (fun d hd => hs d (List.mem_cons_of_mem c hd)) hat' fun r'' hat'' => hk r'' ?_
      rwa [hlast] at hat''

/-- Masked text shows its line ends and nothing else. -/
theorem shows_blankOut (hcode : readsCode contexts = false) {s t view : List Char}
    {contexts' : List Context} (hs : ∀ c ∈ s, Masks contexts c)
    (ht : t.head?.any (· != '\n') = true) (h : ∀ last, Shows contexts last t view contexts') :
    Shows contexts last (s ++ t) (blankOut s ++ view) contexts' := by
  intro r rest more stop hat hk
  rw [List.append_assoc, List.append_assoc]
  have hhead : (t ++ rest).head? ≠ some '\n' := by
    rcases t with _ | ⟨c, t⟩
    · cases ht
    · simpa using ht
  refine resume_blankOut hcode hs hat hhead fun r' hat' => ?_
  refine h _ r' rest more stop hat' fun r'' hat'' => ?_
  rw [← lastAfter_append] at hat''
  exact hk r'' hat''

theorem Literal.masks (s : Literal) : ∀ c ∈ s.text, Masks (.double :: outer) c := by
  intro c hc r rest last hat _
  obtain ⟨hc₁, hc₂, hc₃, hc₄⟩ := s.plain c hc
  rw [Reader.stepFree, hat.contexts_eq]
  show r.stepDouble outer c rest = _
  simp [Reader.stepDouble]

/-! ## Compound commands -/

section
variable {s s' s'' view view' view'' : List Char}

theorem shows_group (hcode : readsCode contexts = true)
    (h : ∀ last, Shows contexts last s view contexts) :
    Shows contexts last ("\x7b ".toList ++ (s ++ "; \x7d".toList))
      ("\x7b ".toList ++ (view ++ "; \x7d".toList)) contexts := by
  refine (shows_marks hcode (by decide)).append ?_
  exact (h _).append (shows_marks hcode (by decide))

/-- The closing parenthesis leads back from the contexts behind the opening one. -/
theorem shows_subshell (hcode : readsCode contexts = true)
    (h : ∀ last, Shows (openParen contexts) last s view (openParen contexts)) :
    Shows contexts last ("( ".toList ++ (s ++ " )".toList)) ("( ".toList ++ (view ++ " )".toList))
      contexts := by
  have hcode' := readsCode_openParen hcode
  have hshows : Shows contexts last ("( ".toList ++ (s ++ " )".toList))
      ("( ".toList ++ (view ++ " )".toList)) (closeParen (openParen contexts)) := by
    refine (Shows.openParen hcode).append ?_
    refine (shows_marks (s := [' ']) hcode' (by decide)).append ?_
    refine (h _).append ?_
    refine (shows_marks (s := [' ']) hcode' (by decide)).append ?_
    exact Shows.closeParen hcode'
  rwa [closeParen_openParen] at hshows

theorem shows_branch (hcode : readsCode contexts = true)
    (hcondition : ∀ last, Shows contexts last s view contexts)
    (hyes : ∀ last, Shows contexts last s' view' contexts)
    (hno : ∀ last, Shows contexts last s'' view'' contexts) :
    Shows contexts last
      ("if ".toList ++ (s ++ ("; then ".toList ++ (s' ++ ("; else ".toList ++
        (s'' ++ "; fi".toList))))))
      ("if ".toList ++ (view ++ ("; then ".toList ++ (view' ++ ("; else ".toList ++
        (view'' ++ "; fi".toList)))))) contexts := by
  refine (shows_marks hcode (by decide)).append ?_
  refine (hcondition _).append ?_
  refine (shows_marks hcode (by decide)).append ?_
  refine (hyes _).append ?_
  refine (shows_marks hcode (by decide)).append ?_
  exact (hno _).append (shows_marks hcode (by decide))

theorem shows_loop (hcode : readsCode contexts = true)
    (hcondition : ∀ last, Shows contexts last s view contexts)
    (hbody : ∀ last, Shows contexts last s' view' contexts) :
    Shows contexts last
      ("while ".toList ++ (s ++ ("; do ".toList ++ (s' ++ "; done".toList))))
      ("while ".toList ++ (view ++ ("; do ".toList ++ (view' ++ "; done".toList)))) contexts := by
  refine (shows_marks hcode (by decide)).append ?_
  refine (hcondition _).append ?_
  refine (shows_marks hcode (by decide)).append ?_
  exact (hbody _).append (shows_marks hcode (by decide))

/-- One command behind another. -/
theorem shows_join (hcode : readsCode contexts = true) (joint : Joint)
    (h : Shows contexts last s view contexts)
    (h' : ∀ last, Shows contexts last s' view' contexts) :
    Shows contexts last (s ++ (joint.text.toList ++ s')) (view ++ (joint.text.toList ++ view'))
      contexts := by
  refine h.append ?_
  exact (shows_marks hcode (by cases joint <;> decide)).append (h' _)

end

/-! ## Programs -/

-- Outside double quotes the contexts are empty, which is what `case` commands need: the parenthesis
-- behind a pattern must end no substitution.
mutual

theorem shows_command : (c : Command) → {inQuotes : Bool} → {contexts : List Context} →
    {last : Option Char} → c.Allowed inQuotes → readsCode contexts = true →
    (inQuotes = false → contexts = []) →
    Shows contexts last (c.print id) (c.print blankOut) contexts
  | .call wrapped name args, _, _, _, ha, hcode, hq => by
      refine (shows_flatMap (fun w _ => shows_wrapperText hcode w) wrapped).append ?_
      refine (name.toPlainWord.shows hcode).append ?_
      exact shows_arguments args ha hcode hq
  | .redirect command target, _, _, _, ha, hcode, hq => by
      refine (shows_command command ha hcode hq).append ?_
      exact (shows_marks hcode (by decide)).append (target.shows hcode)
  | .negate command, _, _, _, ha, hcode, hq => by
      refine (shows_marks hcode (by decide)).append ?_
      exact shows_command command ha hcode hq
  | .group body, _, _, _, ha, hcode, hq =>
      shows_group hcode fun _ => shows_sequence body ha hcode hq
  | .subshell body, _, _, _, ha, hcode, hq =>
      shows_subshell hcode fun _ => shows_sequence body ha (readsCode_openParen hcode) fun e => by
        rw [hq e]
        rfl
  | .branch condition yes no, _, _, _, ⟨hcondition, hyes, hno⟩, hcode, hq =>
      shows_branch hcode (fun _ => shows_sequence condition hcondition hcode hq)
        (fun _ => shows_sequence yes hyes hcode hq) fun _ => shows_sequence no hno hcode hq
  | .loop condition body, _, _, _, ⟨hcondition, hbody⟩, hcode, hq =>
      shows_loop hcode (fun _ => shows_sequence condition hcondition hcode hq) fun _ =>
        shows_sequence body hbody hcode hq
  | .choose subject arms, _, _, _, ⟨hplain, harms⟩, hcode, hq => by
      obtain rfl := hq hplain
      subst hplain
      refine (shows_marks hcode (by decide)).append ?_
      refine (subject.shows hcode).append ?_
      refine (shows_marks hcode (by decide)).append ?_
      refine (shows_arms arms harms).append ?_
      exact shows_marks hcode (by decide)
  | .define keyword name body, _, _, _, ha, hcode, hq => by
      refine (shows_headerText hcode keyword name).append ?_
      refine (shows_sequence body ha hcode hq).append ?_
      exact shows_marks hcode (by decide)

/-- A program shows its view and leads back to the contexts in which it stands. -/
theorem shows_sequence : (s : Sequence) → {inQuotes : Bool} → {contexts : List Context} →
    {last : Option Char} → s.Allowed inQuotes → readsCode contexts = true →
    (inQuotes = false → contexts = []) →
    Shows contexts last (s.print id) (s.print blankOut) contexts
  | .single command, _, _, _, ha, hcode, hq => shows_command command ha hcode hq
  | .join command joint rest, _, _, _, ⟨hcommand, hrest⟩, hcode, hq =>
      shows_join hcode joint (shows_command command hcommand hcode hq) fun _ =>
        shows_sequence rest hrest hcode hq

theorem shows_arguments : (args : Arguments) → {inQuotes : Bool} → {contexts : List Context} →
    {last : Option Char} → args.Allowed inQuotes → readsCode contexts = true →
    (inQuotes = false → contexts = []) →
    Shows contexts last (args.print id) (args.print blankOut) contexts
  | .none, _, _, _, _, _, _ => Shows.nil
  | .more argument rest, _, _, _, ⟨hargument, hrest⟩, hcode, hq => by
      refine (shows_marks hcode (by decide)).append ?_
      refine (shows_argument argument hargument hcode hq).append ?_
      exact shows_arguments rest hrest hcode hq

theorem shows_argument : (a : Argument) → {inQuotes : Bool} → {contexts : List Context} →
    {last : Option Char} → a.Allowed inQuotes → readsCode contexts = true →
    (inQuotes = false → contexts = []) →
    Shows contexts last (a.print id) (a.print blankOut) contexts
  | .word w, _, _, _, _, hcode, _ => w.shows hcode
  | .plainReference v, _, _, _, _, hcode, _ =>
      (shows_marks hcode (by decide)).append (v.shows hcode)
  | .bracedReference v, _, _, _, _, hcode, _ => by
      refine (shows_marks hcode (by decide)).append ?_
      exact (v.shows hcode).append (shows_marks hcode (by decide))
  | .substitution inside, _, contexts, last, ha, hcode, hq => by
      have hcode' := readsCode_openParen hcode
      have hq' : _ = false → openParen contexts = [] := fun e => by rw [hq e]; rfl
      have h : Shows contexts last ("$(".toList ++ (inside.print id ++ ")".toList))
          ("$(".toList ++ (inside.print blankOut ++ ")".toList))
          (closeParen (openParen contexts)) := by
        refine (shows_marks (s := ['$']) hcode (by decide)).append ?_
        refine (Shows.openParen hcode).append ?_
        refine (shows_sequence inside ha hcode' hq').append ?_
        exact Shows.closeParen hcode'
      rwa [closeParen_openParen] at h
  | .quoted q, _, _, _, ha, hcode, _ => (Shows.openDouble hcode).append (shows_quoted q ha)

theorem shows_quoted : (q : Quoted) → {outer : List Context} → {last : Option Char} → q.Allowed →
    Shows (.double :: outer) last (q.print id ++ ['"']) (q.print blankOut ++ ['"']) outer
  | .literal s, outer, last, _ => by
      have hquote : ∀ last, Shows (.double :: outer) last ['"'] ['"'] outer := fun _ =>
        Shows.closeDouble
      exact shows_blankOut rfl s.masks (by simp) hquote
  | .substitution s inside rest, outer, last, ⟨hinside, hrest⟩ => by
      have hsub : ∀ last, Shows (.double :: outer) last
          ("$(".toList ++ (inside.print id ++ (")".toList ++ (rest.print id ++ ['"']))))
          ("$(".toList ++ (inside.print blankOut ++
            (")".toList ++ (rest.print blankOut ++ ['"'])))) outer := by
        intro last
        refine Shows.openSubstitution.append ?_
        refine (shows_sequence inside hinside rfl (by simp)).append ?_
        exact (Shows.closeParen rfl).append (shows_quoted rest hrest)
      have h : Shows (.double :: outer) last _ _ outer :=
        shows_blankOut rfl s.masks (by simp) hsub
      simpa [Quoted.print] using h

theorem shows_arms : (arms : Arms) → {last : Option Char} → arms.Allowed false →
    Shows [] last (arms.print id) (arms.print blankOut) []
  | .none, _, _ => Shows.nil
  | .more opened pattern alternatives body rest, _, ⟨hbody, hrest⟩ => by
      refine (shows_patternText opened pattern alternatives).append ?_
      refine (shows_sequence body hbody rfl fun _ => rfl).append ?_
      exact (shows_marks rfl (by decide)).append (shows_arms rest hrest)

end

end

end ShellIndex.Program
