import ShellIndex.Path.Component

set_option autoImplicit false

/-! # Pieces and components of joined paths

A text is cut into pieces at its slashes, so that two texts with a slash between them have the
pieces of both. Hence the components of a path in a directory are those of the directory and then
those of the name. The root and the current directory are components only at the very start.
-/

namespace ShellIndex.Path

/-! ## Pieces -/

theorem pieces_append_slash (s t : List Char) :
    pieces (s ++ '/' :: t) = pieces s ++ pieces t := by
  induction s with
  | nil => rfl
  | cons c s ih =>
      rw [List.cons_append, pieces, pieces, ih]
      cases hs : pieces s with
      | nil => exact absurd hs (pieces_ne_nil s)
      | cons p ps =>
          by_cases hc : c = '/'
          · rw [if_pos hc, if_pos hc]
            rfl
          · rw [if_neg hc, if_neg hc]
            rfl

theorem pieces_of_no_slash {s : List Char} (h : '/' ∉ s) : pieces s = [s] := by
  induction s with
  | nil => rfl
  | cons c s ih =>
      have hc : c ≠ '/' := fun e => h (by simp [e])
      rw [pieces, ih fun hs => h (List.mem_cons_of_mem c hs), if_neg hc]

theorem no_slash_of_mem_pieces {s p : List Char} (hp : p ∈ pieces s) : '/' ∉ p := by
  induction s generalizing p with
  | nil =>
      obtain rfl := List.mem_singleton.mp hp
      exact List.not_mem_nil
  | cons c s ih =>
      rw [pieces] at hp
      split at hp
      · rcases List.mem_cons.mp hp with rfl | hp
        · exact List.not_mem_nil
        · exact ih hp
      · next hc =>
          split at hp
          · obtain rfl := List.mem_singleton.mp hp
            exact fun h => hc (List.mem_singleton.mp h).symm
          · next q qs hs =>
              rw [hs] at ih
              rcases List.mem_cons.mp hp with rfl | hp
              · intro h
                rcases List.mem_cons.mp h with h | h
                · exact hc h.symm
                · exact ih List.mem_cons_self h
              · exact ih (List.mem_cons_of_mem q hp)

/-- Pieces without slashes are the pieces of the text that they are joined to. -/
theorem pieces_joinPieces {ps : List (List Char)} (hne : ps ≠ []) (h : ∀ p ∈ ps, '/' ∉ p) :
    pieces (joinPieces ps) = ps := by
  induction ps with
  | nil => exact absurd rfl hne
  | cons p ps ih =>
      have hp := h p List.mem_cons_self
      cases ps with
      | nil =>
          have hone : joinPieces [p] = p := by simp [joinPieces, List.intercalate]
          rw [hone, pieces_of_no_slash hp]
      | cons q qs =>
          have hrest := ih (List.cons_ne_nil q qs) fun r hr => h r (List.mem_cons_of_mem p hr)
          rw [joinPieces_cons_cons, pieces_append_slash, pieces_of_no_slash hp, hrest]
          rfl

theorem joinPieces_append {ps qs : List (List Char)} (hps : ps ≠ []) (hqs : qs ≠ []) :
    joinPieces (ps ++ qs) = joinPieces ps ++ '/' :: joinPieces qs := by
  obtain ⟨q, qs, rfl⟩ := List.exists_cons_of_ne_nil hqs
  induction ps with
  | nil => exact absurd rfl hps
  | cons p ps ih =>
      cases ps with
      | nil =>
          have hone : joinPieces [p] = p := by simp [joinPieces, List.intercalate]
          rw [List.singleton_append, joinPieces_cons_cons, hone]
      | cons p' ps =>
          rw [List.cons_append, List.cons_append, joinPieces_cons_cons, ← List.cons_append,
            ih (List.cons_ne_nil p' ps), joinPieces_cons_cons, List.append_assoc, List.cons_append]

theorem isPrefix_joinPieces {ps : List (List Char)} (hps : ps ≠ []) (qs : List (List Char)) :
    joinPieces ps <+: joinPieces (ps ++ qs) := by
  by_cases hqs : qs = []
  · simp [hqs]
  · rw [joinPieces_append hps hqs]
    exact List.prefix_append _ _

/-- Adjacent pieces are a contiguous part of the text. -/
theorem isInfix_joinPieces {ps qs : List (List Char)} (h : ps <:+: qs) :
    joinPieces ps <:+: joinPieces qs := by
  obtain ⟨before, after, rfl⟩ := h
  by_cases hps : ps = []
  · rw [hps]
    exact List.nil_infix
  · rw [List.append_assoc]
    have hfront := isPrefix_joinPieces hps after
    by_cases hbefore : before = []
    · rw [hbefore]
      exact hfront.isInfix
    · rw [joinPieces_append hbefore (by simp [hps])]
      exact hfront.isInfix.trans ((List.suffix_cons _ _).trans (List.suffix_append _ _)).isInfix

/-! ## Components -/

/-- The root and the current directory. -/
def Component.isStart : Component → Bool
  | .root | .current => true
  | _ => false

theorem isStart_of_component? {piece : List Char} {c : Component} (h : component? piece = some c) :
    c.isStart = false := by
  unfold component? at h
  split at h
  · cases h
  · split at h <;> cases h <;> rfl

theorem isStart_of_startComponent? {path : List Char} {c : Component}
    (h : startComponent? path = some c) : c.isStart = true := by
  unfold startComponent? at h
  split at h
  · cases h
    rfl
  · split at h <;> cases h
    rfl

/-- The components that the pieces of a path add, wherever they stand. -/
def innerComponents (path : String) : List Component := (pieces path.toList).filterMap component?

theorem components_eq (path : String) :
    components path = (startComponent? path.toList).toList ++ innerComponents path := rfl

theorem isStart_of_mem_innerComponents {path : String} {c : Component}
    (h : c ∈ innerComponents path) : c.isStart = false := by
  obtain ⟨piece, -, hpiece⟩ := List.mem_filterMap.mp h
  exact isStart_of_component? hpiece

/-- Only the first component of a path can be the root or the current directory. -/
theorem isStart_of_mem_tail_components {path : String} {c : Component}
    (h : c ∈ (components path).tail) : c.isStart = false := by
  rw [components_eq] at h
  cases hs : startComponent? path.toList with
  | none =>
      rw [hs] at h
      exact isStart_of_mem_innerComponents (List.mem_of_mem_tail h)
  | some start =>
      rw [hs] at h
      exact isStart_of_mem_innerComponents h

/-- What a path starts with shows in its components. -/
theorem startComponent?_eq (path : String) :
    startComponent? path.toList = (components path).head?.filter Component.isStart := by
  rw [components_eq]
  cases hs : startComponent? path.toList with
  | some start =>
      have hstart := isStart_of_startComponent? hs
      simp [Option.filter, hstart]
  | none =>
      cases hinner : innerComponents path with
      | nil => rfl
      | cons c cs =>
          have hc : c.isStart = false :=
            isStart_of_mem_innerComponents (by rw [hinner]; exact List.mem_cons_self)
          simp [Option.filter, hc]

theorem head?_eq_slash_iff (path : String) :
    path.toList.head? = some '/' ↔ (components path).head? = some .root := by
  have hstart : path.toList.head? = some '/' ↔ startComponent? path.toList = some .root := by
    unfold startComponent?
    split
    · next h => simp [h]
    · next h =>
        split <;> simp [h]
  rw [hstart, startComponent?_eq, Option.filter_eq_some_iff]
  exact and_iff_left rfl

theorem head?_pieces_ne_nil {s : List Char} (hne : s ≠ []) (hslash : s.head? ≠ some '/') :
    (pieces s).head? ≠ some [] := by
  obtain ⟨c, s, rfl⟩ := List.exists_cons_of_ne_nil hne
  rw [pieces, if_neg fun e => hslash (congrArg some e)]
  split <;> simp

/-- Every path but the empty one has a component. -/
theorem components_ne_nil {path : String} (h : path ≠ "") : components path ≠ [] := by
  intro hnil
  have hne : path.toList ≠ [] := fun hnil => h (String.toList_eq_nil_iff.mp hnil)
  rw [components_eq, List.append_eq_nil_iff, Option.toList_eq_nil_iff] at hnil
  obtain ⟨hstart, hinner⟩ := hnil
  obtain ⟨p, ps, hps⟩ := List.exists_cons_of_ne_nil (pieces_ne_nil path.toList)
  have hp : component? p = none :=
    List.filterMap_eq_nil_iff.mp hinner p (by rw [hps]; exact List.mem_cons_self)
  rw [startComponent?, hps] at hstart
  split at hstart
  · cases hstart
  · next hslash =>
      have hempty := head?_pieces_ne_nil hne hslash
      rw [hps] at hempty
      split at hstart
      · cases hstart
      · next hdot =>
          -- The first piece is neither empty nor a dot, so that it adds a component.
          have hidle : ¬ (p = [] ∨ p = ['.']) := by
            rintro (rfl | rfl)
            · exact hempty rfl
            · exact hdot rfl
          rw [component?, if_neg hidle] at hp
          split at hp <;> cases hp

/-! ## What adds no component -/

theorem startComponent?_eq_of_head? {s s' : List Char} (hchar : s.head? = s'.head?)
    (hpiece : (pieces s).head? = (pieces s').head?) : startComponent? s = startComponent? s' := by
  rw [startComponent?, startComponent?, hchar, hpiece]

/-- Pieces that add nothing may stand between two slashes. -/
theorem components_idle_piece (s t : String) {idle : List Char} (hslash : '/' ∉ idle)
    (hidle : component? idle = none) :
    components (s ++ "/" ++ String.ofList idle ++ "/" ++ t) = components (s ++ "/" ++ t) := by
  have hlong : (s ++ "/" ++ String.ofList idle ++ "/" ++ t).toList =
      s.toList ++ '/' :: (idle ++ '/' :: t.toList) := by simp
  have hshort : (s ++ "/" ++ t).toList = s.toList ++ '/' :: t.toList := by simp
  have hstart : startComponent? (s.toList ++ '/' :: (idle ++ '/' :: t.toList)) =
      startComponent? (s.toList ++ '/' :: t.toList) := by
    obtain ⟨p, ps, hps⟩ := List.exists_cons_of_ne_nil (pieces_ne_nil s.toList)
    refine startComponent?_eq_of_head? ?_ ?_
    · cases s.toList <;> rfl
    · rw [pieces_append_slash, pieces_append_slash, pieces_append_slash, hps]
      rfl
  rw [components_eq, components_eq, innerComponents, innerComponents, hlong, hshort, hstart,
    pieces_append_slash, pieces_append_slash, pieces_append_slash, pieces_of_no_slash hslash]
  simp [List.filterMap_append, List.filterMap_cons_none hidle]

theorem components_double_slash (s t : String) :
    components (s ++ "//" ++ t) = components (s ++ "/" ++ t) := by
  have htext : s ++ "//" ++ t = s ++ "/" ++ String.ofList [] ++ "/" ++ t := by
    rw [← String.toList_inj]
    simp
  rw [htext, components_idle_piece s t List.not_mem_nil rfl]

theorem components_dot_piece (s t : String) :
    components (s ++ "/./" ++ t) = components (s ++ "/" ++ t) := by
  have htext : s ++ "/./" ++ t = s ++ "/" ++ String.ofList ['.'] ++ "/" ++ t := by
    rw [← String.toList_inj]
    simp
  rw [htext, components_idle_piece s t (by decide) rfl]

/-- A dot at the very start is a component of its own. -/
theorem components_leading_dot (t : String) :
    components ("./" ++ t) = .current :: innerComponents t := by
  have htext : ("./" ++ t).toList = ['.'] ++ '/' :: t.toList := by simp
  have hstart : startComponent? (['.'] ++ '/' :: t.toList) = some .current := by
    rw [startComponent?, pieces_append_slash]
    rfl
  rw [components_eq, innerComponents, htext, hstart, pieces_append_slash]
  rfl

/-! ## Joining -/

theorem startComponent?_append (s t : List Char) (hs : s ≠ []) :
    startComponent? (s ++ '/' :: t) = startComponent? s := by
  obtain ⟨c, cs, rfl⟩ := List.exists_cons_of_ne_nil hs
  obtain ⟨p, ps, hp⟩ := List.exists_cons_of_ne_nil (pieces_ne_nil (c :: cs))
  have hpieces : (pieces (c :: cs ++ '/' :: t)).head? = (pieces (c :: cs)).head? := by
    rw [pieces_append_slash, hp]
    rfl
  rw [startComponent?, hpieces, startComponent?]
  rfl

/-- The components of a path in a directory. -/
theorem components_join {dir : String} (hdir : dir ≠ "") (name : String) :
    components (join dir name) = components dir ++ innerComponents name := by
  have hne : dir.toList ≠ [] := fun h => hdir (String.toList_eq_nil_iff.mp h)
  have hempty : dir.isEmpty = false := by simpa using hdir
  rw [join, hempty]
  by_cases hlast : dir.toList.getLast? = some '/'
  · -- The slash at the end of the directory ends an empty piece, which adds no component.
    obtain ⟨s, hs⟩ := List.getLast?_eq_some_iff.mp hlast
    have hinner : innerComponents dir = (pieces s).filterMap component? := by
      rw [innerComponents, hs, pieces_append_slash, List.filterMap_append]
      simp [pieces, component?]
    rw [if_neg (by simp), if_pos hlast, components_eq, components_eq, innerComponents,
      String.toList_append, hs, List.append_assoc, List.singleton_append, pieces_append_slash,
      List.filterMap_append, hinner]
    cases s with
    | nil => rfl
    | cons c s =>
        rw [startComponent?_append _ _ (List.cons_ne_nil c s),
          startComponent?_append _ _ (List.cons_ne_nil c s), List.append_assoc]
        rfl
  · have htext : (dir ++ "/" ++ name).toList = dir.toList ++ '/' :: name.toList := by simp
    rw [if_neg (by simp), if_neg hlast, components_eq, components_eq, innerComponents, htext,
      startComponent?_append _ _ hne, pieces_append_slash, List.filterMap_append,
      List.append_assoc]
    rfl

end ShellIndex.Path
