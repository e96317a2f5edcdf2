import ShellIndex.Path.Remainder
import ShellIndex.Proofs.Path.Components

set_option autoImplicit false

/-! # What the rest of a path consists of

A path has a rest below a directory exactly if the components of the directory start those of the
path. The rest then has the other components of the path, in order, and it is cut out so closely
that it is determined by them where they are a single name.
-/

namespace ShellIndex.Path

/-! ## Pieces without idle ends -/

/-- Pieces of a text that starts and ends with a component. -/
structure Trimmed (ps : List (List Char)) : Prop where
  no_slash : ∀ p ∈ ps, '/' ∉ p
  head_eq : ∀ p, ps.head? = some p → isIdle p = false
  last_eq : ∀ p, ps.getLast? = some p → isIdle p = false

theorem isIdle_eq_true_iff {piece : List Char} : isIdle piece = true ↔ component? piece = none :=
  Option.isNone_iff_eq_none

theorem filterMap_dropWhile_isIdle (ps : List (List Char)) :
    (ps.dropWhile isIdle).filterMap component? = ps.filterMap component? := by
  induction ps with
  | nil => rfl
  | cons p ps ih =>
      by_cases hp : isIdle p = true
      · rw [List.dropWhile_cons_of_pos hp, ih,
          List.filterMap_cons_none (isIdle_eq_true_iff.mp hp)]
      · rw [List.dropWhile_cons_of_neg hp]

theorem filterMap_trimPiecesEnd (ps : List (List Char)) :
    (trimPiecesEnd ps).filterMap component? = ps.filterMap component? := by
  rw [trimPiecesEnd, List.filterMap_reverse, filterMap_dropWhile_isIdle, List.filterMap_reverse,
    List.reverse_reverse]

theorem filterMap_dropComponents (n : Nat) (ps : List (List Char)) :
    (dropComponents n ps).filterMap component? = (ps.filterMap component?).drop n := by
  induction ps generalizing n with
  | nil => cases n <;> rfl
  | cons p ps ih =>
      cases n with
      | zero => rfl
      | succ n =>
          rw [dropComponents]
          cases hp : component? p with
          | none => rw [if_pos (isIdle_eq_true_iff.mpr hp), ih, List.filterMap_cons_none hp]
          | some c =>
              rw [if_neg (by simp [isIdle, hp]), ih, List.filterMap_cons_some hp, List.drop_succ_cons]

theorem isSuffix_dropComponents (n : Nat) (ps : List (List Char)) : dropComponents n ps <:+ ps := by
  induction ps generalizing n with
  | nil => cases n <;> exact List.suffix_rfl
  | cons p ps ih =>
      cases n with
      | zero => exact List.suffix_rfl
      | succ n =>
          rw [dropComponents]
          split
          · exact (ih (n + 1)).trans (List.suffix_cons p ps)
          · exact (ih n).trans (List.suffix_cons p ps)

theorem isPrefix_trimPiecesEnd (ps : List (List Char)) : trimPiecesEnd ps <+: ps := by
  rw [trimPiecesEnd, ← List.reverse_suffix, List.reverse_reverse]
  exact List.dropWhile_suffix _

/-- Cutting idle pieces off at both ends. -/
theorem trimmed_trimPiecesEnd {ps : List (List Char)} (h : ∀ p ∈ ps, '/' ∉ p) :
    Trimmed (trimPiecesEnd (ps.dropWhile isIdle)) := by
  have hfront := isPrefix_trimPiecesEnd (ps.dropWhile isIdle)
  refine ⟨fun p hp => ?_, fun p hp => ?_, fun p hp => ?_⟩
  · exact h p ((List.dropWhile_sublist _).mem (hfront.subset hp))
  · have hhead := List.head?_dropWhile_not isIdle ps
    obtain ⟨idle, hidle⟩ := hfront
    rw [← hidle, List.head?_append, hp] at hhead
    exact hhead
  · have hlast := List.head?_dropWhile_not isIdle (ps.dropWhile isIdle).reverse
    rw [trimPiecesEnd, List.getLast?_reverse] at hp
    rw [hp] at hlast
    exact hlast

/-! ## The components of the rest -/

theorem startComponent?_of_not_isIdle {s p : List Char} (hp : (pieces s).head? = some p)
    (hidle : isIdle p = false) : startComponent? s = none := by
  have hne : p ≠ [] ∧ p ≠ ['.'] := by
    constructor <;>
    · rintro rfl
      revert hidle
      decide
  have hslash : s.head? ≠ some '/' := by
    intro hs
    obtain ⟨rest, rfl⟩ := List.head?_eq_some_iff.mp hs
    exact hne.1 (Option.some.inj hp).symm
  rw [startComponent?, if_neg hslash, hp, if_neg fun e => hne.2 (Option.some.inj e)]

theorem Trimmed.startComponent?_eq {ps : List (List Char)} (h : Trimmed ps) :
    startComponent? (joinPieces ps) = none := by
  cases ps with
  | nil => rfl
  | cons p ps =>
      have hpieces := pieces_joinPieces (List.cons_ne_nil p ps) h.no_slash
      exact startComponent?_of_not_isIdle (by rw [hpieces]; rfl) (h.head_eq p rfl)

theorem Trimmed.innerComponents_eq {ps : List (List Char)} (h : Trimmed ps) :
    innerComponents (String.ofList (joinPieces ps)) = ps.filterMap component? := by
  cases ps with
  | nil => rfl
  | cons p ps =>
      rw [innerComponents, String.toList_ofList,
        pieces_joinPieces (List.cons_ne_nil p ps) h.no_slash]

/-- A text made of trimmed pieces has the components that these add, and no others. -/
theorem Trimmed.components_eq {ps : List (List Char)} (h : Trimmed ps) :
    components (String.ofList (joinPieces ps)) = ps.filterMap component? := by
  rw [Path.components_eq, String.toList_ofList, h.startComponent?_eq, h.innerComponents_eq]
  rfl

theorem remainder?_eq_none_iff {path dir : String} :
    remainder? path dir = none ↔ ¬ components dir <+: components path := by
  rw [remainder?, ← List.isPrefixOf_iff_prefix]
  split
  · next h =>
      split <;> simp [h]
  · next h => simp [h]

/-- The rest of a path below a directory is made of trimmed pieces that follow each other in the path,
and these add the rest of the components. -/
theorem exists_remainder? {path dir : String} {rest : List Component}
    (hdir : components dir ≠ []) (h : components path = components dir ++ rest) :
    ∃ ps, remainder? path dir = some (String.ofList (joinPieces ps)) ∧ Trimmed ps ∧
      ps <:+: pieces path.toList ∧ ps.filterMap component? = rest := by
  obtain ⟨c, cs, hcs⟩ := List.exists_cons_of_ne_nil hdir
  have hstart : startComponent? path.toList = startComponent? dir.toList := by
    rw [startComponent?_eq, startComponent?_eq, h, hcs]
    rfl
  have hinner : innerComponents path = innerComponents dir ++ rest := by
    rw [components_eq, components_eq, hstart, List.append_assoc] at h
    exact List.append_cancel_left h
  have hnamed : (components dir).length - (startComponent? dir.toList).toList.length =
      (innerComponents dir).length := by
    rw [components_eq, List.length_append, Nat.add_sub_cancel_left]
  have hbelow : (components dir).isPrefixOf (components path) = true := by
    rw [List.isPrefixOf_iff_prefix, h]
    exact List.prefix_append _ _
  have hbase : (components dir).isEmpty = false := by
    rw [hcs]
    rfl
  have hslash : ∀ p ∈ dropComponents (innerComponents dir).length (pieces path.toList), '/' ∉ p :=
    fun p hp => no_slash_of_mem_pieces ((isSuffix_dropComponents _ _).subset hp)
  refine ⟨_, ?_, trimmed_trimPiecesEnd hslash, ?_, ?_⟩
  · rw [remainder?, if_pos hbelow, hbase, if_neg (by simp), hnamed]
  · exact (isPrefix_trimPiecesEnd _).isInfix.trans
      ((List.dropWhile_suffix _).trans (isSuffix_dropComponents _ _)).isInfix
  · rw [filterMap_trimPiecesEnd, filterMap_dropWhile_isIdle, filterMap_dropComponents]
    show (innerComponents path).drop _ = rest
    rw [hinner, List.drop_left]

/-- The components of the rest are the rest of the components. -/
theorem components_remainder? {path dir label : String} {rest : List Component}
    (hdir : components dir ≠ []) (h : components path = components dir ++ rest)
    (hlabel : remainder? path dir = some label) : components label = rest := by
  obtain ⟨ps, hps, htrimmed, -, hrest⟩ := exists_remainder? hdir h
  obtain rfl := Option.some.inj (hps.symm.trans hlabel)
  rw [htrimmed.components_eq, hrest]

/-! ## The whole path

Every path lies below the empty one. The rest of it is the path without the slashes and dots at its
end that add nothing; those at its start stay, since the first component may be one of them.
-/

theorem eq_nil_of_isIdle_of_joinPieces {ps : List (List Char)} (h : joinPieces ps = [])
    {last : List Char} (hlast : ps.getLast? = some last) : isIdle last = true := by
  cases ps with
  | nil => cases hlast
  | cons p ps =>
      cases ps with
      | nil =>
          obtain rfl := Option.some.inj hlast
          have hone : joinPieces [p] = p := by simp [joinPieces, List.intercalate]
          rw [← hone, h]
          rfl
      | cons q qs =>
          rw [joinPieces_cons_cons] at h
          simp at h

/-- What is cut off at the end adds no component, not even at the start. -/
theorem startComponent?_joinPieces_trimPiecesEnd {s : List Char}
    (h : trimPiecesEnd (pieces s) ≠ []) :
    startComponent? (joinPieces (trimPiecesEnd (pieces s))) = startComponent? s := by
  obtain ⟨idle, hidle⟩ := isPrefix_trimPiecesEnd (pieces s)
  have hne : joinPieces (trimPiecesEnd (pieces s)) ≠ [] := by
    intro hnil
    obtain ⟨last, hlast⟩ : ∃ last, (trimPiecesEnd (pieces s)).getLast? = some last :=
      ⟨_, List.getLast?_eq_some_getLast h⟩
    have hkept := List.head?_dropWhile_not isIdle (pieces s).reverse
    have hhead := hlast
    rw [trimPiecesEnd, List.getLast?_reverse] at hhead
    rw [hhead] at hkept
    exact absurd ((eq_nil_of_isIdle_of_joinPieces hnil hlast).symm.trans hkept) (by decide)
  by_cases hnone : idle = []
  · rw [hnone, List.append_nil] at hidle
    rw [hidle, joinPieces_pieces]
  · have hs : s = joinPieces (trimPiecesEnd (pieces s)) ++ '/' :: joinPieces idle := by
      rw [← joinPieces_append h hnone, hidle, joinPieces_pieces]
    have happend := startComponent?_append _ (joinPieces idle) hne
    rw [← hs] at happend
    exact happend.symm

theorem remainder?_empty (path : String) :
    remainder? path "" = some (String.ofList (trimEnd path.toList)) := by
  have hbelow : (components "").isPrefixOf (components path) = true :=
    List.isPrefixOf_iff_prefix.mpr List.nil_prefix
  rw [remainder?, if_pos hbelow]
  rfl

theorem innerComponents_trimPiecesEnd (path : String) :
    (trimPiecesEnd (pieces path.toList)).filterMap component? = innerComponents path :=
  filterMap_trimPiecesEnd _

theorem trimEnd_eq_joinPieces {s : List Char} (h : trimPiecesEnd (pieces s) ≠ []) :
    trimEnd s = joinPieces (trimPiecesEnd (pieces s)) := by
  unfold trimEnd
  split
  · next hnil => exact absurd hnil h
  · rfl

/-- A path keeps its components when its end is cut off. -/
theorem components_trimEnd (path : String) :
    components (String.ofList (trimEnd path.toList)) = components path := by
  have hinner := innerComponents_trimPiecesEnd path
  by_cases h : trimPiecesEnd (pieces path.toList) = []
  · -- All pieces are idle, so that only the start of the path can add a component.
    rw [h] at hinner
    rw [components_eq path, ← hinner, trimEnd, h]
    cases hs : startComponent? path.toList with
    | none => rfl
    | some c =>
        have hc := isStart_of_startComponent? hs
        cases c with
        | root => rfl
        | current => rfl
        | parent => cases hc
        | name text => cases hc
  · have hslash : ∀ p ∈ trimPiecesEnd (pieces path.toList), '/' ∉ p :=
      fun p hp => no_slash_of_mem_pieces ((isPrefix_trimPiecesEnd _).subset hp)
    rw [components_eq, components_eq, innerComponents, String.toList_ofList,
      trimEnd_eq_joinPieces h, pieces_joinPieces h hslash, hinner,
      startComponent?_joinPieces_trimPiecesEnd h]

/-- What a path can start with is its first character. -/
theorem isPrefix_of_startComponent? {s : List Char} {c : Component}
    (h : startComponent? s = some c) : (if c = .root then ['/'] else ['.']) <+: s := by
  unfold startComponent? at h
  split at h
  · next hslash =>
      cases h
      obtain ⟨rest, rfl⟩ := List.head?_eq_some_iff.mp hslash
      exact ⟨rest, rfl⟩
  · split at h
    · next hdot =>
        cases h
        obtain ⟨ps, hps⟩ := List.head?_eq_some_iff.mp hdot
        rw [← joinPieces_pieces s, hps]
        exact isPrefix_joinPieces (List.cons_ne_nil ['.'] []) ps
    · cases h

theorem isPrefix_trimEnd (s : List Char) : trimEnd s <+: s := by
  by_cases h : trimPiecesEnd (pieces s) = []
  · simp only [trimEnd, h]
    split
    · next hs => exact isPrefix_of_startComponent? hs
    · next hs => exact isPrefix_of_startComponent? hs
    · exact List.nil_prefix
  · obtain ⟨idle, hidle⟩ := isPrefix_trimPiecesEnd (pieces s)
    have hkept := isPrefix_joinPieces h idle
    rw [hidle, joinPieces_pieces] at hkept
    rwa [trimEnd_eq_joinPieces h]

/-! ## The name of an entry -/

/-- A text that can be the name of an entry: it has no slash, and it is neither empty nor a dot nor
two dots. -/
structure IsEntryName (name : String) : Prop where
  no_slash : '/' ∉ name.toList
  component?_eq : component? name.toList = some (.name name)

namespace IsEntryName
variable {name : String}

theorem trimmed (h : IsEntryName name) : Trimmed [name.toList] := by
  have hidle : isIdle name.toList = false := by rw [isIdle, h.component?_eq]; rfl
  refine ⟨fun p hp => ?_, fun p hp => ?_, fun p hp => ?_⟩
  · obtain rfl := List.mem_singleton.mp hp
    exact h.no_slash
  · obtain rfl := Option.some.inj hp
    exact hidle
  · obtain rfl := Option.some.inj hp
    exact hidle

theorem innerComponents_eq (h : IsEntryName name) : innerComponents name = [.name name] := by
  rw [innerComponents, pieces_of_no_slash h.no_slash, List.filterMap_cons_some h.component?_eq]
  rfl

theorem components_eq (h : IsEntryName name) : components name = [.name name] := by
  have hjoin : String.ofList (joinPieces [name.toList]) = name := by
    simp [joinPieces, List.intercalate]
  rw [← hjoin, h.trimmed.components_eq, List.filterMap_cons_some h.component?_eq, hjoin]
  rfl

end IsEntryName

theorem eq_of_component?_eq_name {piece : List Char} {name : String}
    (h : component? piece = some (.name name)) : piece = name.toList := by
  unfold component? at h
  split at h
  · cases h
  · split at h
    · cases h
    · cases h
      simp

/-- Trimmed pieces that add one name are that name. -/
theorem Trimmed.eq_singleton {ps : List (List Char)} {name : String} (h : Trimmed ps)
    (hname : ps.filterMap component? = [.name name]) : ps = [name.toList] := by
  cases ps with
  | nil => cases hname
  | cons p ps =>
      have hp := h.head_eq p rfl
      obtain ⟨c, hc⟩ : ∃ c, component? p = some c := by
        cases hc : component? p with
        | none => simp [isIdle, hc] at hp
        | some c => exact ⟨c, rfl⟩
      rw [List.filterMap_cons_some hc] at hname
      obtain ⟨rfl, hrest⟩ := List.cons.inj hname
      -- The last piece is not idle either, so that there is none behind the first.
      cases ps with
      | nil => rw [eq_of_component?_eq_name hc]
      | cons q qs =>
          obtain ⟨last, hlast⟩ : ∃ last, (q :: qs).getLast? = some last :=
            ⟨_, List.getLast?_eq_some_getLast (List.cons_ne_nil q qs)⟩
          have hidle := h.last_eq last (by rw [List.getLast?_cons_cons]; exact hlast)
          have hnone := List.filterMap_eq_nil_iff.mp hrest last (List.mem_of_getLast? hlast)
          rw [isIdle_eq_true_iff.mpr hnone] at hidle
          cases hidle

/-- The rest of a path is a name exactly if that is the only component left. -/
theorem remainder?_eq_name_iff {path dir name : String} {rest : List Component}
    (hname : IsEntryName name) (hdir : components dir ≠ [])
    (h : components path = components dir ++ rest) :
    remainder? path dir = some name ↔ rest = [.name name] := by
  constructor
  · intro hlabel
    rw [← components_remainder? hdir h hlabel, hname.components_eq]
  · rintro rfl
    obtain ⟨ps, hps, htrimmed, -, hrest⟩ := exists_remainder? hdir h
    rw [hps, htrimmed.eq_singleton hrest]
    simp [joinPieces, List.intercalate]

end ShellIndex.Path
