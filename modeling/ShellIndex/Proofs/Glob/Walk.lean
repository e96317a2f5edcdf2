import Mathlib.Data.List.Basic
import ShellIndex.Glob.Walk
import ShellIndex.Proofs.FileTree.Entries
import ShellIndex.Proofs.FileTree.Plain
import ShellIndex.Proofs.Path.Remainder

set_option autoImplicit false

/-! # How the matches of a pattern are spelled

A pattern without a component that starts with a dot never matches the current directory or the
directory above. So the files that match it are found under plain paths, which are absolute exactly if
the pattern is.
-/

namespace ShellIndex.Glob

open ShellIndex.Path FileTree

/-! ## Reading a pattern -/

theorem head?_of_map_cons {tokens : Except PatternFault (List Token)} {token : Token}
    {found : List Token} (h : tokens.map (token :: ·) = .ok found) : found.head? = some token := by
  cases tokens with
  | error fault => cases h
  | ok rest =>
      obtain rfl := Except.ok.inj h
      rfl

theorem readSet?_ne_char {text after : List Char} {token : Token}
    (h : readSet? text = some (token, after)) (c : Char) : token ≠ .char c := by
  rintro rfl
  unfold readSet? at h
  split at h
  · simp at h
  · split at h <;> simp at h
  · cases h

/-- Only the character itself is read as a character. -/
theorem head?_of_tokensFrom {position : Nat} {atStart : Bool} {text : List Char} {c : Char}
    {tokens : List Token} (h : tokensFrom position atStart text = .ok tokens)
    (hhead : tokens.head? = some (.char c)) : text.head? = some c := by
  -- Each rule puts one token in front of those of the rest.
  have hne : ∀ {rest : Except PatternFault (List Token)} {token : Token},
      rest.map (token :: ·) = .ok tokens → token = .char c := fun hrest =>
    Option.some.inj ((head?_of_map_cons hrest).symm.trans hhead)
  unfold tokensFrom at h
  split at h
  · obtain rfl := Except.ok.inj h
    cases hhead
  · cases hne h
  · cases h
  · split at h
    · split at h
      · obtain rfl := Except.ok.inj h
        cases hhead
      · split at h
        · cases hne h
        · cases h
    · cases h
  · cases hne h
  · split at h
    · cases h
    · next hread => exact absurd (hne h) (readSet?_ne_char hread c)
  · obtain rfl := Token.char.inj (hne h)
    rfl

namespace Segment

/-- Whether a component of a pattern stands in one directory and is not written with a dot first. -/
def NoDot : Segment → Prop
  | literal name => '/' ∉ name.toList ∧ name.toList.head? ≠ some '.'
  | wild tokens => tokens.head? ≠ some (.char '.')
  | anyDepth => True

theorem noDot_ofTokens {piece : List Char} {found : List Token} (hslash : '/' ∉ piece)
    (hdot : piece.head? ≠ some '.') (h : tokens piece = .ok found) :
    (ofTokens piece found).NoDot := by
  unfold ofTokens
  split
  · trivial
  · split
    · rw [NoDot, String.toList_ofList]
      exact ⟨hslash, hdot⟩
    · exact fun hhead => hdot (head?_of_tokensFrom h hhead)

theorem startsWithDot_of_noDot {tokens : List Token} (h : (wild tokens).NoDot) :
    (wild tokens).startsWithDot = false := by
  unfold startsWithDot
  split
  · next rest hwild =>
      obtain rfl := Segment.wild.inj hwild
      exact absurd rfl h
  · rfl

end Segment

theorem mem_of_mapM_eq_ok {α β ε : Type} {f : α → Except ε β} {as : List α} {bs : List β}
    (h : as.mapM f = .ok bs) : ∀ b ∈ bs, ∃ a ∈ as, f a = .ok b := by
  induction as generalizing bs with
  | nil =>
      obtain rfl := Except.ok.inj h
      nofun
  | cons a as ih =>
      rw [List.mapM_cons] at h
      rcases hfirst : f a with fault | b
      · rw [hfirst] at h
        cases h
      · rcases hrest : as.mapM f with fault | bs'
        · rw [hfirst, hrest] at h
          cases h
        · rw [hfirst, hrest] at h
          obtain rfl := Except.ok.inj h
          intro b' hb'
          rcases List.mem_cons.mp hb' with rfl | hb'
          · exact ⟨a, List.mem_cons_self, hfirst⟩
          · obtain ⟨a', ha', hfound⟩ := ih hrest b' hb'
            exact ⟨a', List.mem_cons_of_mem a ha', hfound⟩

namespace PathPattern

theorem mem_of_mem_collapse {segment : Segment} {segments : List Segment}
    (h : segment ∈ collapse segments) : segment ∈ segments := by
  induction segments with
  | nil => cases h
  | cons first rest ih =>
      rw [collapse] at h
      split at h
      · exact List.mem_cons_of_mem first (ih h)
      · rcases List.mem_cons.mp h with rfl | h
        · exact List.mem_cons_self
        · exact List.mem_cons_of_mem first (ih h)

/-- The pieces of a pattern are pieces of its text, or it is the root. -/
theorem mem_of_mem_piecesOf {rest piece : List Char} (h : piece ∈ piecesOf rest) :
    piece ∈ pieces rest := by
  unfold piecesOf at h
  split at h
  · next hempty =>
      obtain rfl := List.isEmpty_iff.mp hempty
      exact h
  · dsimp only at h
    split at h
    · exact (List.dropLast_sublist _).mem h
    · exact h

theorem noDots_tail {text : List Char} (h : NoDots text) (habsolute : text.head? = some '/') :
    NoDots text.tail := by
  cases text with
  | nil => cases habsolute
  | cons c rest =>
      obtain rfl := Option.some.inj habsolute
      exact fun piece hpiece => h piece (List.mem_cons_of_mem [] hpiece)

/-- The components that are read from the text behind the root. -/
theorem noDot_of_mapM_piecesOf {rest : List Char} {segments : List Segment} (hdots : NoDots rest)
    (h : ((piecesOf rest).mapM fun piece => (tokens piece).map (Segment.ofTokens piece)) =
      .ok segments) : ∀ segment ∈ segments, segment.NoDot := by
  intro segment hsegment
  obtain ⟨piece, hpiece, hread⟩ := mem_of_mapM_eq_ok h segment hsegment
  cases hfound : tokens piece with
  | error fault =>
      rw [hfound] at hread
      cases hread
  | ok found =>
      rw [hfound] at hread
      obtain rfl := Except.ok.inj hread
      have hmem := mem_of_mem_piecesOf hpiece
      exact Segment.noDot_ofTokens (no_slash_of_mem_pieces hmem) (hdots piece hmem) hfound

/-- What a pattern without dots is read as. -/
theorem parse_of_noDots {pattern : String} {parsed : PathPattern} (hdots : NoDots pattern.toList)
    (h : parse pattern = .ok parsed) :
    parsed.absolute = (pattern.toList.head? == some '/') ∧
      ∀ segment ∈ parsed.segments, segment.NoDot := by
  have hrest : NoDots (if pattern.toList.head? == some '/' then pattern.toList.tail
      else pattern.toList) := by
    split
    · next habsolute => exact noDots_tail hdots (beq_iff_eq.mp habsolute)
    · exact hdots
  rw [parse] at h
  dsimp only at h
  rcases htokens : tokens pattern.toList with fault | all
  · rw [htokens] at h
    cases h
  · rw [htokens] at h
    rcases hsegments : (piecesOf (if pattern.toList.head? == some '/' then pattern.toList.tail
        else pattern.toList)).mapM fun piece => (tokens piece).map (Segment.ofTokens piece)
      with fault | segments
    · simp only [hsegments] at h
      cases h
    · simp only [hsegments] at h
      obtain rfl := Except.ok.inj h
      exact ⟨rfl, fun segment hsegment =>
        noDot_of_mapM_piecesOf hrest hsegments segment (mem_of_mem_collapse hsegment)⟩

end PathPattern

/-! ## Matches -/

section
variable {t : FileTree} {absolute : Bool} {dir name path : String}

/-- What a match can lead to: the start of a relative pattern, or a plain path. -/
def IsReached (absolute : Bool) (path : String) : Prop :=
  (absolute = false ∧ path = ".") ∨ (components path ≠ [] ∧ IsPlain absolute path)

theorem isPlain_of_isEntryName (h : IsEntryName name) : IsPlain false name :=
  ⟨[name], h.components_eq⟩

theorem isCurrent_eq_false (h : IsPlain absolute dir) : isCurrent dir = false := by
  obtain ⟨names, hnames⟩ := h
  rw [isCurrent, hnames, beq_eq_false_iff_ne]
  cases absolute <;> cases names <;> simp

/-- From a directory that is reached a plain path is reached. -/
theorem IsReached.enter (h : IsReached absolute dir) (hname : IsPlain false name)
    (hne : dir = "." → components name ≠ []) : IsReached absolute (enter dir name) := by
  rcases h with ⟨rfl, rfl⟩ | ⟨hdir, hplain⟩
  · have henter : Glob.enter "." name = name := rfl
    rw [henter]
    exact Or.inr ⟨hne rfl, hname⟩
  · have hempty : dir ≠ "" := fun hempty => hdir (by rw [hempty]; rfl)
    rw [Glob.enter, isCurrent_eq_false hplain, if_neg (by simp)]
    refine Or.inr ⟨fun hnil => hdir ?_, hplain.join hempty hname⟩
    rw [components_join hempty] at hnil
    exact (List.append_eq_nil_iff.mp hnil).1

theorem IsReached.enter_entry (h : IsReached absolute dir) (hname : IsEntryName name) :
    IsReached absolute (Glob.enter dir name) :=
  h.enter (isPlain_of_isEntryName hname) fun _ => by rw [hname.components_eq]; simp

/-- Names with slashes between them are a plain path. -/
theorem components_intercalate {names : Location} (h : ∀ name ∈ names, IsEntryName name) :
    components (String.intercalate "/" names) = names.map .name := by
  have htrimmed : Trimmed (names.map String.toList) := by
    have hidle : ∀ piece ∈ names.map String.toList, isIdle piece = false := by
      intro piece hpiece
      obtain ⟨name, hname, rfl⟩ := List.mem_map.mp hpiece
      rw [isIdle, (h name hname).component?_eq]
      rfl
    refine ⟨fun piece hpiece => ?_, fun piece hpiece => hidle piece (List.mem_of_mem_head? hpiece),
      fun piece hpiece => hidle piece (List.mem_of_getLast? hpiece)⟩
    obtain ⟨name, hname, rfl⟩ := List.mem_map.mp hpiece
    exact (h name hname).no_slash
  have htext : String.intercalate "/" names =
      String.ofList (joinPieces (names.map String.toList)) := by
    simp [joinPieces, ← String.toList_inj, String.toList_intercalate]
  rw [htext, htrimmed.components_eq, List.filterMap_map, List.filterMap_eq_map_iff_forall_eq_some]
  exact fun name hname => (h name hname).component?_eq

theorem IsReached.of_mem_everythingBelow (ht : t.AllNames IsEntryName) (h : IsReached absolute dir)
    {place : Location} {entry : String × String} (hentry : entry ∈ everythingBelow t dir place) :
    IsReached absolute entry.1 := by
  obtain ⟨names, hnames, hlast⟩ := List.mem_filterMap.mp hentry
  obtain ⟨name, hname, rfl⟩ := Option.map_eq_some_iff.mp hlast
  have hcomponents := components_intercalate (ht.of_mem_below hnames)
  refine h.enter ⟨names, hcomponents⟩ fun _ hnil => ?_
  rw [hcomponents, List.map_eq_nil_iff] at hnil
  rw [hnil] at hname
  cases hname

theorem components_ne_nil_of_exists (h : t.exists? path = true) : components path ≠ [] := by
  rw [exists?, find?] at h
  split at h
  · next place hplace => exact components_ne_nil_of_resolve hplace
  · cases h

theorem isPlain_of_literal (h : (Segment.literal name).NoDot) : IsPlain false name := by
  obtain ⟨hslash, hdot⟩ := h
  have hrelative : (name.toList.head? == some '/') = false := by
    rw [beq_eq_false_iff_ne]
    exact fun hhead => hslash (List.mem_of_mem_head? hhead)
  rw [← hrelative]
  refine isPlain_of_noDots fun piece hpiece => ?_
  rw [pieces_of_no_slash hslash, List.mem_singleton] at hpiece
  rwa [hpiece]

/-- **What is matched by components without a leading dot is reached.** -/
theorem isReached_of_mem_walk (ht : t.AllNames IsEntryName) {segments : List Segment}
    (hsegments : ∀ segment ∈ segments, segment.NoDot) (h : IsReached absolute dir)
    (hpath : path ∈ walk t dir segments) : IsReached absolute path := by
  fun_induction walk t dir segments with
  | case1 dir =>
      obtain rfl := List.mem_singleton.mp hpath
      exact h
  | case2 dir name rest next found hfound ih =>
      obtain ⟨hliteral, hrest⟩ := List.forall_mem_cons.mp hsegments
      have hname : ¬ (name = "." ∨ name = "..") := by
        rintro (rfl | rfl)
        · exact hliteral.2 rfl
        · exact hliteral.2 rfl
      have hexists : t.exists? next = true := (if_neg hname).symm.trans hfound
      refine ih hrest (h.enter (isPlain_of_literal hliteral) ?_) hpath
      rintro rfl
      exact components_ne_nil_of_exists hexists
  | case5 dir tokens rest place hplace segment dots _ ih =>
      obtain ⟨hwild, hrest⟩ := List.forall_mem_cons.mp hsegments
      have hdots : dots = [] := if_neg (by simp [segment, Segment.startsWithDot_of_noDot hwild])
      rw [hdots, List.filter_nil, List.flatMap_nil, List.nil_append] at hpath
      obtain ⟨name, hname, hpath⟩ := List.mem_flatMap.mp hpath
      have hentry := ht.of_mem_namesAt (List.mem_filter.mp hname).1
      exact ih name hrest (h.enter_entry hentry) hpath
  | case7 dir place hplace =>
      obtain ⟨entry, hentry, rfl⟩ := List.mem_map.mp (List.mem_filter.mp hpath).1
      exact h.of_mem_everythingBelow ht hentry
  | case9 dir segment rest place hplace ih =>
      have hrest := (List.forall_mem_cons.mp (List.forall_mem_cons.mp hsegments).2).2
      obtain ⟨entry, hentry, hpath⟩ := List.mem_flatMap.mp hpath
      exact ih entry hrest (h.of_mem_everythingBelow ht (List.mem_filter.mp hentry).1) hpath
  | case3 | case4 | case6 | case8 => cases hpath

/-- The current directory is no file. -/
theorem isFile_dot (t : FileTree) : t.isFile "." = false := by
  refine Bool.eq_false_iff.mpr fun hfile => ?_
  obtain ⟨place, content, hplace, hnode⟩ := isFile_iff.mp hfile
  obtain ⟨-, -, hfollow⟩ := resolve_eq_ok_iff.mp hplace
  have hpieces : pieces ".".toList = [['.']] := rfl
  rw [hpieces] at hfollow
  have hstays : place = t.origin "." := eq_of_followAll hfollow
  rw [followAll_cons] at hfollow
  cases hnext : t.follow (t.origin ".") ['.'] with
  | error fault =>
      rw [hnext] at hfollow
      cases hfollow
  | ok next =>
      have hdirectory := beq_iff_eq.mp (isDirectoryAt_of_follow hnext)
      rw [← hstays, hnode] at hdirectory
      cases hdirectory

theorem isPlain_of_isReached (h : IsReached absolute path) (hfile : t.isFile path = true) :
    IsPlain absolute path := by
  rcases h with ⟨-, rfl⟩ | ⟨-, hplain⟩
  · rw [isFile_dot] at hfile
    cases hfile
  · exact hplain

/-- **The files that match a pattern without dots are found under plain paths.** -/
theorem isPlain_of_mem_paths (ht : t.AllNames IsEntryName) {pattern : String} {parsed : PathPattern}
    (hdots : NoDots pattern.toList) (hparsed : PathPattern.parse pattern = .ok parsed)
    (hpath : path ∈ parsed.paths t) (hfile : t.isFile path = true) :
    IsPlain (pattern.toList.head? == some '/') path := by
  obtain ⟨habsolute, hsegments⟩ := PathPattern.parse_of_noDots hdots hparsed
  rw [← habsolute]
  have hstart : IsReached parsed.absolute (if parsed.absolute then "/" else ".") := by
    cases parsed.absolute with
    | false => exact Or.inl ⟨rfl, rfl⟩
    | true => exact Or.inr ⟨by decide, [], rfl⟩
  exact isPlain_of_isReached
    (isReached_of_mem_walk ht hsegments hstart (List.mem_filter.mp hpath).1) hfile

end

end ShellIndex.Glob
