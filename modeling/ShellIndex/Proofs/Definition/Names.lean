import ShellIndex.Proofs.Definition.Spans

set_option autoImplicit false

/-! # Every definition has a name

Every definition of a script has the name of a header, which is not empty and has none but the
characters of names. The invariant is `Progress.Named`: neither a definition that has been found nor
the one that is open lacks its name.

Under another label a script has the same definitions, with this label (`extract_relabel`).
-/

namespace ShellIndex.Definition

open Source

/-- What has been found is named, and so is what is open. -/
structure Progress.Named (p : Progress) : Prop where
  found : ∀ d ∈ p.found, Header.IsName d.name.toList
  opened : ∀ o, p.opening? = some o → Header.IsName o.name.toList

/-- Whether openings have the name of their header. -/
def KeepsName (opening : List Char → Opening) : Prop :=
  ∀ name, (opening name).name = String.ofList name

section
variable {file : String} {p p' : Progress} {opening : List Char → Opening} {code : List Char}

theorem KeepsName.isName (h : KeepsName opening) {name : List Char} (hname : Header.IsName name) :
    Header.IsName (opening name).name.toList := by
  rw [h name, String.toList_ofList]
  exact hname

theorem keepsName_bare (number : Nat) : KeepsName (Opening.bare number) := fun _ => rfl

theorem keepsName_below (before : List Line) (number : Nat) :
    KeepsName (Opening.below before number) := fun _ => rfl

namespace Progress.Named

theorem openBody (h : p.Named) {o : Opening} (ho : Header.IsName o.name.toList) :
    (p.openBody o).Named := by
  refine ⟨h.found, fun o' ho' => ?_⟩
  obtain rfl : o = o' := by simpa [Progress.opening?, Progress.openBody] using ho'
  exact ho

theorem await (h : p.Named) {o : Opening} (ho : Header.IsName o.name.toList) :
    ({ p with phase := .awaiting o } : Progress).Named := by
  refine ⟨h.found, fun o' ho' => ?_⟩
  obtain rfl : o = o' := by simpa [Progress.opening?] using ho'
  exact ho

theorem with_braces (h : p.Named) (braces : Braces) : ({ p with braces } : Progress).Named :=
  ⟨h.found, h.opened⟩

theorem closeBody (h : p.Named) (number : Nat) : (p.closeBody file number).Named := by
  obtain ⟨found, phase, braces⟩ := p
  cases phase with
  | outside => exact h
  | awaiting o => exact h
  | inside o outer =>
      exact ⟨List.forall_mem_cons.mpr ⟨h.opened o rfl, h.found⟩, nofun⟩

theorem enter {entry : Entry} (h : p.Named) (hopening : KeepsName opening)
    (hentry : p.enter opening code = .ok entry) : entry.progress.Named := by
  rcases Progress.enter_cases hentry with rfl | ⟨_, name, rest, hname, rfl⟩ | ⟨_, name, hname, rfl⟩
  · exact h
  · exact h.openBody (hopening.isName hname)
  · exact h.await (hopening.isName hname)

/-- The rounds of a line find no definition without a name. -/
theorem readRounds {number : Nat} (h : p.Named) (hopening : KeepsName opening)
    (hread : p.readRounds file number opening code = .ok p') : p'.Named := by
  fun_induction Progress.readRounds p file number opening code with
  | case1 p opening code fault hentry => cases hread
  | case2 p opening code q hentry =>
      obtain rfl := Except.ok.inj hread
      exact h.enter hopening hentry
  | case3 p opening code q rest hentry braces hscan =>
      obtain rfl := Except.ok.inj hread
      exact with_braces (h.enter hopening hentry) braces
  | case4 p opening code q rest hentry braces after hscan ih =>
      -- Behind a closed body a header is read again, now without a comment above it.
      have hq : q.Named := h.enter hopening hentry
      exact ih ((hq.closeBody number).with_braces braces) (keepsName_bare number) hread

theorem readLine {before : List Line} {l : Line} (h : p.Named)
    (hread : p.readLine file before l = .ok p') : p'.Named := by
  unfold Progress.readLine at hread
  split at hread
  · next o hphase =>
      have ho : p.opening? = some o := by rw [Progress.opening?, hphase]
      split at hread
      · obtain rfl := Except.ok.inj hread
        exact h
      · split at hread
        · exact (h.openBody (h.opened o ho)).readRounds (keepsName_bare l.number) hread
        · cases hread
  · exact h.readRounds (keepsName_below before l.number) hread

theorem readLines {before lines : List Line} (h : p.Named)
    (hread : p.readLines file before lines = .ok p') : p'.Named := by
  induction lines generalizing p before with
  | nil =>
      obtain rfl := Except.ok.inj hread
      exact h
  | cons l lines ih =>
      rw [Progress.readLines] at hread
      split at hread
      · cases hread
      · next q hq => exact ih (h.readLine hq) hread

end Progress.Named

end

/-- Every definition of a script has the name of a header. -/
theorem isName_of_extract {file text : String} {found : List Definition}
    (h : extract file text = .ok found) : ∀ d ∈ found, Header.IsName d.name.toList := by
  obtain ⟨p, hread, -, rfl⟩ := exists_readLines_of_extract h
  have hstart : Progress.start.Named := ⟨nofun, nofun⟩
  have hnamed := hstart.readLines hread
  exact fun d hd => hnamed.found d (List.mem_reverse.mp hd)

/-- **Every definition of a script has a name**, and its file is the label of the script. -/
theorem name_ne_empty_of_extract {file text : String} {found : List Definition}
    (h : extract file text = .ok found) : ∀ d ∈ found, d.name ≠ "" ∧ d.file = file := by
  obtain ⟨q, hordered, hfound⟩ := ordered_of_extract h
  intro d hd
  refine ⟨fun hempty => (isName_of_extract h d hd).ne_nil ?_, ?_⟩
  · rw [hempty]
    rfl
  · rw [hfound] at hd
    exact (hordered.inOrder.bounds d (List.mem_reverse.mp hd)).1

/-! ## Labels -/

/-- A definition with another label. -/
def relabel (file : String) (d : Definition) : Definition := { d with file }

namespace Progress

/-- The progress with another label of what has been found. -/
def relabel (file : String) (p : Progress) : Progress :=
  { p with found := p.found.map (Definition.relabel file) }

section
variable {file file' : String} {p p' : Progress}

theorem relabel_closeBody (number : Nat) :
    (p.closeBody file number).relabel file' = (p.relabel file').closeBody file' number := by
  obtain ⟨found, phase, braces⟩ := p
  cases phase <;> rfl

/-- What has been found does not matter for the start of a round. -/
theorem enter_relabel {opening : List Char → Opening} {code : List Char} :
    (p.relabel file).enter opening code = (p.enter opening code).map fun entry =>
      match entry with
      | .text p rest => .text (p.relabel file) rest
      | .lineEnd p => .lineEnd (p.relabel file) := by
  obtain ⟨found, phase, braces⟩ := p
  cases phase with
  | awaiting o => rfl
  | inside o outer => rfl
  | outside =>
      unfold enter
      dsimp only [relabel]
      split
      · rfl
      · split
        · rfl
        · split <;> rfl

theorem readRounds_relabel {number : Nat} {opening : List Char → Opening} {code : List Char}
    (h : p.readRounds file number opening code = .ok p') :
    (p.relabel file').readRounds file' number opening code = .ok (p'.relabel file') := by
  fun_induction readRounds p file number opening code with
  | case1 p opening code fault hentry => cases h
  | case2 p opening code q hentry =>
      obtain rfl := Except.ok.inj h
      rw [readRounds_eq, enter_relabel, hentry]
      rfl
  | case3 p opening code q rest hentry braces hscan =>
      obtain rfl := Except.ok.inj h
      have hentry' : (p.relabel file').enter opening code = .ok (.text (q.relabel file') rest) := by
        rw [enter_relabel, hentry]
        rfl
      exact readRounds_of_scan_none hentry' hscan
  | case4 p opening code q rest hentry braces after hscan ih =>
      have hentry' : (p.relabel file').enter opening code = .ok (.text (q.relabel file') rest) := by
        rw [enter_relabel, hentry]
        rfl
      rw [readRounds_of_scan_some hentry' hscan, ← relabel_closeBody]
      exact ih h

theorem readLine_relabel {before : List Line} {l : Line} (h : p.readLine file before l = .ok p') :
    (p.relabel file').readLine file' before l = .ok (p'.relabel file') := by
  obtain ⟨found, phase, braces⟩ := p
  cases phase with
  | outside => exact readRounds_relabel h
  | inside o outer => exact readRounds_relabel h
  | awaiting o =>
      simp only [readLine, relabel] at h ⊢
      split at h
      · obtain rfl := Except.ok.inj h
        rfl
      · split at h
        · next hopen =>
            rw [if_pos hopen]
            exact readRounds_relabel h
        · cases h

theorem readLines_relabel {before lines : List Line} (h : p.readLines file before lines = .ok p') :
    (p.relabel file').readLines file' before lines = .ok (p'.relabel file') := by
  induction lines generalizing p before with
  | nil =>
      obtain rfl := Except.ok.inj h
      rfl
  | cons l lines ih =>
      rw [readLines] at h ⊢
      split at h
      · cases h
      · next q hq =>
          rw [readLine_relabel hq]
          exact ih h

end

end Progress

/-- **Only the labels of the definitions depend on the label of a script.** -/
theorem extract_relabel {file text : String} {found : List Definition}
    (h : extract file text = .ok found) (file' : String) :
    extract file' text = .ok (found.map (relabel file')) := by
  obtain ⟨p, hread, hphase, rfl⟩ := exists_readLines_of_extract h
  have hread' : Progress.start.readLines file' [] (scan text) = .ok (p.relabel file') :=
    Progress.readLines_relabel hread
  have hphase' : (p.relabel file').phase = .outside := hphase
  rw [extract, ofLines, hread']
  dsimp only
  rw [Progress.finish, hphase', List.map_reverse]
  rfl

/-- The names of the definitions of a script, in order. A malformed script has none. -/
def namesIn (file text : String) : List String :=
  match extract file text with
  | .ok found => found.map Definition.name
  | .error _ => []

theorem namesIn_of_extract {file text : String} {found : List Definition}
    (h : extract file text = .ok found) : namesIn file text = found.map Definition.name := by
  rw [namesIn, h]

/-- The names do not depend on the label. -/
theorem namesIn_relabel (file file' text : String) : namesIn file text = namesIn file' text := by
  cases h : extract file text with
  | ok found =>
      rw [namesIn_of_extract h, namesIn_of_extract (extract_relabel h file'), List.map_map]
      rfl
  | error e =>
      cases h' : extract file' text with
      | ok found =>
          rw [extract_relabel h' file] at h
          cases h
      | error e' => rw [namesIn, namesIn, h, h']

end ShellIndex.Definition
