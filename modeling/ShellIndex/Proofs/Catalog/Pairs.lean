import Mathlib.Data.List.Dedup
import ShellIndex.Proofs.Catalog.Dependencies

set_option autoImplicit false

/-! # Catalogs as sets of pairs

A catalog is determined by the pairs of a name and a file that it holds. The catalog that pairs are
offered to, one after another, holds those of them that are accepted, so that neither their order
nor their number matters. What a script depends on is additive in the catalog.
-/

namespace ShellIndex

namespace Catalog

/-! ## What a catalog holds -/

section
variable {catalog catalog' : Catalog} {name file : String}

theorem defines_iff {files : NameSet} (h : catalog.definingFiles? name = some files) :
    catalog.Defines name file ↔ file ∈ files := by
  simp [Defines, h]

/-- A name that is known is defined in some file. -/
theorem exists_defines {files : NameSet} (h : catalog.definingFiles? name = some files) :
    ∃ file, catalog.Defines name file := by
  obtain ⟨hne, -⟩ := catalog.located h
  rw [ne_eq, Std.ExtTreeSet.eq_empty_iff_forall_not_mem, not_forall_not] at hne
  obtain ⟨file, hfile⟩ := hne
  exact ⟨file, (defines_iff h).mpr hfile⟩

theorem mem_entries_iff : name ∈ catalog.entries ↔ ∃ file, catalog.Defines name file := by
  rw [Std.ExtTreeMap.mem_iff_isSome_getElem?, Option.isSome_iff_exists]
  constructor
  · rintro ⟨files, hfiles⟩
    exact exists_defines hfiles
  · rintro ⟨file, files, hfiles, -⟩
    exact ⟨files, hfiles⟩

theorem mem_files : file ∈ catalog.files ↔ ∃ name, catalog.Defines name file := by
  simp only [files, NameSet.mem_ofList, List.mem_flatMap, Prod.exists,
    Std.ExtTreeMap.mem_toList_iff_getElem?_eq_some, Std.ExtTreeSet.mem_toList]
  rfl

/-- The size of a catalog is the number of different names in it. -/
theorem size_eq {names : List String}
    (h : ∀ name, name ∈ names ↔ ∃ file, catalog.Defines name file) :
    catalog.size = names.dedup.length := by
  have hperm : catalog.entries.keys.Perm names.dedup := by
    refine (List.perm_ext_iff_of_nodup Std.ExtTreeMap.nodup_keys (List.nodup_dedup names)).mpr ?_
    intro name
    rw [Std.ExtTreeMap.mem_keys, mem_entries_iff, List.mem_dedup, h]
  rw [size, ← Std.ExtTreeMap.length_keys, hperm.length_eq]

/-- **A catalog is determined by the pairs that it holds.** -/
theorem ext_defines (h : ∀ name file, catalog.Defines name file ↔ catalog'.Defines name file) :
    catalog = catalog' := by
  have hentries : catalog.entries = catalog'.entries := by
    refine Std.ExtTreeMap.ext_getElem? fun name => ?_
    show catalog.definingFiles? name = catalog'.definingFiles? name
    -- A name that only one of them knows would have a file, and so a pair, in that one alone.
    cases hfiles : catalog.definingFiles? name with
    | none =>
        cases hfiles' : catalog'.definingFiles? name with
        | none => rfl
        | some files' =>
            obtain ⟨file, hfile⟩ := exists_defines hfiles'
            obtain ⟨files, hsome, -⟩ := (h name file).mpr hfile
            cases hfiles.symm.trans hsome
    | some files =>
        cases hfiles' : catalog'.definingFiles? name with
        | none =>
            obtain ⟨file, hfile⟩ := exists_defines hfiles
            obtain ⟨files', hsome, -⟩ := (h name file).mp hfile
            cases hfiles'.symm.trans hsome
        | some files' =>
            refine congrArg some (Std.ExtTreeSet.ext_mem fun file => ?_)
            rw [← defines_iff hfiles, ← defines_iff hfiles', h]
  cases catalog
  cases catalog'
  simpa using hentries

end

/-! ## Pairs that are offered -/

/-- Whether a pair of a name and a file is accepted. -/
def Accepts (pair : String × String) : Prop := pair.1 ≠ "" ∧ pair.2 ≠ ""

instance : DecidablePred Accepts := fun pair =>
  inferInstanceAs (Decidable (pair.1 ≠ "" ∧ pair.2 ≠ ""))

/-- Whether a pair is refused for a reason. A missing name comes before a missing file. -/
def Refuses (pair : String × String) (e : CatalogError) : Prop :=
  (pair.1 = "" ∧ e = .emptyName pair.2) ∨
    (pair.1 ≠ "" ∧ pair.2 = "" ∧ e = .missingFile pair.1)

/-- The catalog after a pair has been offered to it. One that is refused changes nothing. -/
def offer (catalog : Catalog) (pair : String × String) : Catalog :=
  match catalog.insert pair.1 pair.2 with
  | .ok catalog => catalog
  | .error _ => catalog

/-- The catalog that some pairs have been offered to, one after another. -/
def ofPairs (pairs : List (String × String)) : Catalog := pairs.foldl offer empty

section
variable (catalog : Catalog) (pair : String × String)

theorem insert_eq_error_iff (e : CatalogError) :
    catalog.insert pair.1 pair.2 = .error e ↔ Refuses pair e := by
  rw [insert, Refuses]
  split
  · next hname => simp [hname, @eq_comm _ e]
  · next hname =>
      split
      · next hfile => simp [hname, hfile, @eq_comm _ e]
      · next hfile => simp [hname, hfile]

/-- A pair is accepted or refused. -/
theorem accepts_or_refuses : Accepts pair ∨ ∃ e, Refuses pair e := by
  by_cases hname : pair.1 = ""
  · exact Or.inr ⟨_, Or.inl ⟨hname, rfl⟩⟩
  · by_cases hfile : pair.2 = ""
    · exact Or.inr ⟨_, Or.inr ⟨hname, hfile, rfl⟩⟩
    · exact Or.inl ⟨hname, hfile⟩

variable {pair}

theorem not_accepts_of_refuses {e : CatalogError} (h : Refuses pair e) : ¬ Accepts pair := by
  rintro ⟨hname, hfile⟩
  rcases h with ⟨hempty, -⟩ | ⟨-, hempty, -⟩
  · exact hname hempty
  · exact hfile hempty

theorem insert_of_accepts (h : Accepts pair) :
    catalog.insert pair.1 pair.2 = .ok (catalog.offer pair) := by
  have hinsert : catalog.insert pair.1 pair.2 = .ok (catalog.add pair.1 pair.2 h.1 h.2) := by
    rw [insert, dif_neg h.1, dif_neg h.2]
  rw [offer, hinsert]

theorem offer_of_refuses {e : CatalogError} (h : Refuses pair e) : catalog.offer pair = catalog := by
  rw [offer, (catalog.insert_eq_error_iff pair e).mpr h]

theorem defines_offer (name file : String) : (catalog.offer pair).Defines name file ↔
    ((name, file) = pair ∧ Accepts pair) ∨ catalog.Defines name file := by
  rcases accepts_or_refuses pair with haccepts | ⟨e, hrefuses⟩
  · have hoffer : catalog.offer pair = catalog.add pair.1 pair.2 haccepts.1 haccepts.2 := by
      have hinsert := catalog.insert_of_accepts haccepts
      rw [insert, dif_neg haccepts.1, dif_neg haccepts.2] at hinsert
      exact (Except.ok.inj hinsert).symm
    rw [hoffer, defines_add]
    simp [haccepts, Prod.ext_iff]
  · rw [catalog.offer_of_refuses hrefuses]
    simp [not_accepts_of_refuses hrefuses]

end

/-- Some pairs that are offered add those of them that are accepted. -/
theorem defines_foldl_offer (pairs : List (String × String)) (catalog : Catalog)
    (name file : String) : (pairs.foldl offer catalog).Defines name file ↔
      ((name, file) ∈ pairs ∧ Accepts (name, file)) ∨ catalog.Defines name file := by
  induction pairs generalizing catalog with
  | nil => simp
  | cons pair pairs ih =>
      rw [List.foldl_cons, ih, defines_offer, List.mem_cons]
      constructor
      · rintro (⟨hmem, haccepts⟩ | ⟨rfl, haccepts⟩ | hdefines)
        · exact Or.inl ⟨Or.inr hmem, haccepts⟩
        · exact Or.inl ⟨Or.inl rfl, haccepts⟩
        · exact Or.inr hdefines
      · rintro (⟨rfl | hmem, haccepts⟩ | hdefines)
        · exact Or.inr (Or.inl ⟨rfl, haccepts⟩)
        · exact Or.inl ⟨hmem, haccepts⟩
        · exact Or.inr (Or.inr hdefines)

/-- **A catalog holds the accepted pairs among those that were offered to it.** -/
theorem defines_ofPairs (pairs : List (String × String)) (name file : String) :
    (ofPairs pairs).Defines name file ↔ (name, file) ∈ pairs ∧ Accepts (name, file) := by
  rw [ofPairs, defines_foldl_offer]
  exact or_iff_left (not_defines_empty name file)

section
variable (pairs : List (String × String))

theorem mem_accepted_iff (pair : String × String) :
    pair ∈ pairs.filter Accepts ↔ pair ∈ pairs ∧ Accepts pair := by
  rw [List.mem_filter, decide_eq_true_iff]

theorem size_ofPairs : (ofPairs pairs).size = ((pairs.filter Accepts).map Prod.fst).dedup.length := by
  refine size_eq fun name => ?_
  simp only [List.mem_map, mem_accepted_iff, defines_ofPairs, Prod.exists]
  constructor
  · rintro ⟨_, file, hpair, rfl⟩
    exact ⟨file, hpair⟩
  · rintro ⟨file, hpair⟩
    exact ⟨name, file, hpair, rfl⟩

theorem mem_files_ofPairs (file : String) :
    file ∈ (ofPairs pairs).files ↔ file ∈ (pairs.filter Accepts).map Prod.snd := by
  simp only [mem_files, List.mem_map, mem_accepted_iff, defines_ofPairs, Prod.exists]
  constructor
  · rintro ⟨name, hpair⟩
    exact ⟨name, file, hpair, rfl⟩
  · rintro ⟨name, _, hpair, rfl⟩
    exact ⟨name, hpair⟩

variable {pairs}

/-- **The catalog depends only on the set of the accepted pairs.** -/
theorem ofPairs_eq_iff {pairs' : List (String × String)} : ofPairs pairs = ofPairs pairs' ↔
    ∀ pair, pair ∈ pairs.filter Accepts ↔ pair ∈ pairs'.filter Accepts := by
  simp only [mem_accepted_iff]
  constructor
  · rintro hsame ⟨name, file⟩
    rw [← defines_ofPairs, hsame, defines_ofPairs]
  · intro hsame
    refine ext_defines fun name file => ?_
    rw [defines_ofPairs, defines_ofPairs]
    exact hsame (name, file)

end

/-! ## Catalogs of definitions -/

end Catalog

/-- The name of a definition with its file. -/
def Definition.entry (d : Definition) : String × String := (d.name, d.file)

namespace Catalog

/-- The definitions up to the first that is refused are added. -/
theorem insertAll_of_accepts (catalog : Catalog) {definitions : List Definition}
    (h : ∀ d ∈ definitions, Accepts d.entry) :
    catalog.insertAll definitions = .ok ((definitions.map Definition.entry).foldl offer catalog) := by
  induction definitions generalizing catalog with
  | nil => rfl
  | cons d definitions ih =>
      have hd : catalog.insert d.name d.file = .ok (catalog.offer d.entry) :=
        catalog.insert_of_accepts (h d List.mem_cons_self)
      rw [insertAll, hd, List.map_cons, List.foldl_cons]
      exact ih (catalog.offer d.entry) fun d' hd' => h d' (List.mem_cons_of_mem d hd')

/-- Some definitions are refused for the first among them that is. -/
theorem insertAll_of_refuses (catalog : Catalog) {good rest : List Definition} {d : Definition}
    {e : CatalogError} (hgood : ∀ d ∈ good, Accepts d.entry) (h : Refuses d.entry e) :
    catalog.insertAll (good ++ d :: rest) = .error e := by
  induction good generalizing catalog with
  | nil =>
      have hd : catalog.insert d.name d.file = .error e :=
        (catalog.insert_eq_error_iff d.entry e).mpr h
      rw [List.nil_append, insertAll, hd]
  | cons first good ih =>
      have hfirst : catalog.insert first.name first.file = .ok (catalog.offer first.entry) :=
        catalog.insert_of_accepts (hgood first List.mem_cons_self)
      rw [List.cons_append, insertAll, hfirst]
      exact ih (catalog.offer first.entry) fun d' hd' => hgood d' (List.mem_cons_of_mem first hd')

/-- Either all definitions are accepted or there is a first that is refused. -/
theorem all_accepts_or (definitions : List Definition) : (∀ d ∈ definitions, Accepts d.entry) ∨
    ∃ good d rest e, definitions = good ++ d :: rest ∧ (∀ d ∈ good, Accepts d.entry) ∧
      Refuses d.entry e := by
  induction definitions with
  | nil => exact Or.inl (by simp)
  | cons d definitions ih =>
      rcases accepts_or_refuses d.entry with haccepts | ⟨e, hrefuses⟩
      · rcases ih with hall | ⟨good, d', rest, e, rfl, hgood, hrefuses⟩
        · exact Or.inl (List.forall_mem_cons.mpr ⟨haccepts, hall⟩)
        · exact Or.inr ⟨d :: good, d', rest, e, rfl,
            List.forall_mem_cons.mpr ⟨haccepts, hgood⟩, hrefuses⟩
      · exact Or.inr ⟨[], d, definitions, e, rfl, by simp, hrefuses⟩

theorem ofDefinitions_eq_ok_iff {definitions : List Definition} {catalog : Catalog} :
    ofDefinitions definitions = .ok catalog ↔
      (∀ d ∈ definitions, Accepts d.entry) ∧
        catalog = ofPairs (definitions.map Definition.entry) := by
  constructor
  · intro h
    rcases all_accepts_or definitions with hall | ⟨good, d, rest, e, rfl, hgood, hrefuses⟩
    · have hok := empty.insertAll_of_accepts hall
      exact ⟨hall, Except.ok.inj (h.symm.trans hok)⟩
    · rw [ofDefinitions, empty.insertAll_of_refuses hgood hrefuses] at h
      cases h
  · rintro ⟨hall, rfl⟩
    exact empty.insertAll_of_accepts hall

/-- **Definitions are refused for the first among them that lacks its name or its file.** -/
theorem ofDefinitions_eq_error_iff {definitions : List Definition} {e : CatalogError} :
    ofDefinitions definitions = .error e ↔
      ∃ good d rest, definitions = good ++ d :: rest ∧ (∀ d ∈ good, Accepts d.entry) ∧
        Refuses d.entry e := by
  constructor
  · intro h
    rcases all_accepts_or definitions with hall | ⟨good, d, rest, e', rfl, hgood, hrefuses⟩
    · rw [ofDefinitions, empty.insertAll_of_accepts hall] at h
      cases h
    · rw [ofDefinitions, empty.insertAll_of_refuses hgood hrefuses] at h
      obtain rfl := Except.error.inj h
      exact ⟨good, d, rest, rfl, hgood, hrefuses⟩
  · rintro ⟨good, d, rest, rfl, hgood, hrefuses⟩
    exact empty.insertAll_of_refuses hgood hrefuses

/-- The catalog of some definitions holds the pairs that they give and no others. -/
theorem defines_ofDefinitions {catalog : Catalog} {definitions : List Definition}
    (h : ofDefinitions definitions = .ok catalog) (name file : String) :
    catalog.Defines name file ↔ ∃ d ∈ definitions, d.name = name ∧ d.file = file := by
  obtain ⟨haccepts, rfl⟩ := ofDefinitions_eq_ok_iff.mp h
  rw [defines_ofPairs, List.mem_map]
  constructor
  · rintro ⟨⟨d, hd, hentry⟩, -⟩
    exact ⟨d, hd, Prod.mk.inj hentry⟩
  · rintro ⟨d, hd, rfl, rfl⟩
    exact ⟨⟨d, hd, rfl⟩, haccepts d hd⟩

/-- Two lists of definitions that are accepted are accepted together. -/
theorem exists_ofDefinitions_append {left right : List Definition} {catalog catalog' : Catalog}
    (hleft : ofDefinitions left = .ok catalog) (hright : ofDefinitions right = .ok catalog') :
    ∃ whole, ofDefinitions (left ++ right) = .ok whole ∧ ∀ name file,
      whole.Defines name file ↔ catalog.Defines name file ∨ catalog'.Defines name file := by
  have hboth : ∀ d ∈ left ++ right, Accepts d.entry := List.forall_mem_append.mpr
    ⟨(ofDefinitions_eq_ok_iff.mp hleft).1, (ofDefinitions_eq_ok_iff.mp hright).1⟩
  have hwhole := ofDefinitions_eq_ok_iff.mpr ⟨hboth, rfl⟩
  refine ⟨_, hwhole, fun name file => ?_⟩
  rw [defines_ofDefinitions hwhole, defines_ofDefinitions hleft, defines_ofDefinitions hright]
  simp only [List.mem_append, or_and_right, exists_or]

/-! ## Dependencies on two catalogs -/

/-- A script depends on what it depends on in either of two catalogs. -/
theorem dependenciesOf_union_catalogs {catalog left right : Catalog}
    (h : ∀ name file, catalog.Defines name file ↔
      left.Defines name file ∨ right.Defines name file) (file text : String) :
    (catalog.dependenciesOf file text).functions =
        (left.dependenciesOf file text).functions ∪ (right.dependenciesOf file text).functions ∧
      (catalog.dependenciesOf file text).files =
        (left.dependenciesOf file text).files ∪ (right.dependenciesOf file text).files := by
  constructor
  · refine Std.ExtTreeSet.ext_mem fun n => ?_
    simp only [Std.ExtTreeSet.mem_union_iff, mem_functions_dependenciesOf, h, and_or_left,
      exists_or]
  · refine Std.ExtTreeSet.ext_mem fun f => ?_
    simp only [Std.ExtTreeSet.mem_union_iff, mem_files_dependenciesOf, h, and_or_left, exists_or]

theorem mapDependencies_of_ok {definitions : List Definition} {catalog : Catalog}
    (h : ofDefinitions definitions = .ok catalog) (file text : String) :
    mapDependencies file text definitions = .ok (catalog.dependenciesOf file text) := by
  rw [mapDependencies, h]
  rfl

/-- A script depends on what it depends on with regard to either of two lists of definitions. -/
theorem mapDependencies_append {left right : List Definition} {catalog catalog' : Catalog}
    (hleft : ofDefinitions left = .ok catalog) (hright : ofDefinitions right = .ok catalog')
    (file text : String) :
    ∃ whole ofLeft ofRight, mapDependencies file text (left ++ right) = .ok whole ∧
      mapDependencies file text left = .ok ofLeft ∧
      mapDependencies file text right = .ok ofRight ∧
      whole.functions = ofLeft.functions ∪ ofRight.functions ∧
      whole.files = ofLeft.files ∪ ofRight.files := by
  obtain ⟨whole, hwhole, hdefines⟩ := exists_ofDefinitions_append hleft hright
  exact ⟨_, _, _, mapDependencies_of_ok hwhole file text, mapDependencies_of_ok hleft file text,
    mapDependencies_of_ok hright file text, dependenciesOf_union_catalogs hdefines file text⟩

end Catalog

end ShellIndex
