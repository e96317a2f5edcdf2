import Mathlib.Data.List.NodupEquivFin
import ShellIndex.Duplicates

set_option autoImplicit false

/-! # Groups of clashing definitions

Definitions clash if they have the same key. There is one group for each key that at least two of
the definitions have, in ascending order of the keys, with all the definitions of that key in the
order in which they were given. So the keys do not depend on the order of the definitions, and the
groups only in the order of their sites.
-/

namespace ShellIndex

/-! ## Keys -/

namespace Scope

/-- Definitions clash if they agree in name, and in file if only one file counts. -/
theorem key_eq_iff (scope : Scope) (d d' : Definition) :
    scope.key d = scope.key d' ↔ d.name = d'.name ∧ (scope = .perFile → d.file = d'.file) := by
  cases scope with
  | perFile => simp [key, and_comm]
  | repository => simp [key]

/-- The name in a key. -/
def keyName (key : List String) : String := key.getLast?.getD ""

theorem keyName_key (scope : Scope) (d : Definition) : keyName (scope.key d) = d.name := by
  cases scope <;> rfl

end Scope

section
variable (scope : Scope) (definitions : List Definition)

/-- The definitions that have a key, in order. -/
def membersOf (key : List String) : List Definition :=
  definitions.filter fun d => scope.key d == key

/-- The keys that at least two definitions have, in ascending order. -/
def duplicateKeys : List (List String) :=
  (scopeKeys scope definitions).filter fun key => 2 ≤ (membersOf scope definitions key).length

/-- The group of the definitions that have a key. -/
def groupOf (key : List String) : DuplicateGroup :=
  ⟨Scope.keyName key, (membersOf scope definitions key).map fun d => (d.file, d.start)⟩

variable {scope definitions}

theorem mem_membersOf {key : List String} {d : Definition} :
    d ∈ membersOf scope definitions key ↔ d ∈ definitions ∧ scope.key d = key := by
  rw [membersOf, List.mem_filter, beq_iff_eq]

theorem mem_scopeKeys {key : List String} :
    key ∈ scopeKeys scope definitions ↔ ∃ d ∈ definitions, scope.key d = key := by
  simp [scopeKeys]

theorem mem_duplicateKeys {key : List String} :
    key ∈ duplicateKeys scope definitions ↔ 2 ≤ (membersOf scope definitions key).length := by
  rw [duplicateKeys, List.mem_filter, decide_eq_true_iff]
  refine and_iff_right_of_imp fun hlength => ?_
  obtain ⟨d, hd⟩ := List.exists_mem_of_length_pos (Nat.lt_of_lt_of_le Nat.two_pos hlength)
  exact mem_scopeKeys.mpr ⟨d, mem_membersOf.mp hd⟩

theorem pairwise_duplicateKeys :
    (duplicateKeys scope definitions).Pairwise fun key key' => compare key key' = .lt :=
  Std.ExtTreeSet.ordered_toList.filter _

/-! ## Groups -/

/-- The members of a key form a group if there are at least two of them. -/
theorem ofMembers?_membersOf (key : List String) :
    DuplicateGroup.ofMembers? (membersOf scope definitions key) =
      if 2 ≤ (membersOf scope definitions key).length then some (groupOf scope definitions key)
      else none := by
  rw [groupOf]
  rcases hmembers : membersOf scope definitions key with _ | ⟨d, _ | ⟨d', more⟩⟩
  · rfl
  · rfl
  · have hd : d ∈ membersOf scope definitions key := by
      rw [hmembers]
      exact List.mem_cons_self
    rw [← (mem_membersOf.mp hd).2, Scope.keyName_key, if_pos (by simp)]
    rfl

/-- **There is one group for each key that at least two definitions have.** -/
theorem duplicateGroups_eq (scope : Scope) (definitions : List Definition) :
    duplicateGroups scope definitions =
      (duplicateKeys scope definitions).map (groupOf scope definitions) := by
  rw [duplicateGroups, duplicateKeys]
  -- It does not matter here which keys there are, only what each of them comes to.
  generalize scopeKeys scope definitions = keys
  induction keys with
  | nil => rfl
  | cons key keys ih =>
      rw [List.filterMap_cons, List.filter_cons, ih]
      have hgroup : DuplicateGroup.ofMembers? (definitions.filter fun d => scope.key d == key) = _ :=
        ofMembers?_membersOf key
      rw [hgroup]
      by_cases hlength : 2 ≤ (membersOf scope definitions key).length
      · simp [hlength]
      · simp [hlength]

/-! ## Names -/

theorem mem_duplicateNames_iff {name : String} : name ∈ duplicateNames scope definitions ↔
    ∃ group ∈ duplicateGroups scope definitions, group.name = name := by
  rw [duplicateNames, NameSet.mem_ofList, List.mem_map]

theorem mem_duplicateNames_iff_key {name : String} : name ∈ duplicateNames scope definitions ↔
    ∃ key ∈ duplicateKeys scope definitions, Scope.keyName key = name := by
  rw [mem_duplicateNames_iff, duplicateGroups_eq]
  simp only [List.mem_map, exists_exists_and_eq_and]
  rfl

theorem length_membersOf (key : List String) :
    (membersOf scope definitions key).length = (definitions.map scope.key).count key := by
  rw [membersOf, List.count, List.countP_map, ← List.countP_eq_length_filter]
  rfl

/-- At least two definitions have a key if it stands at two positions. -/
theorem two_le_length_membersOf_iff {key : List String} :
    2 ≤ (membersOf scope definitions key).length ↔
      ∃ (i j : Nat) (d d' : Definition), i < j ∧ definitions[i]? = some d ∧
        definitions[j]? = some d' ∧ scope.key d = key ∧ scope.key d' = key := by
  have hduplicate : 2 ≤ (definitions.map scope.key).count key ↔
      (definitions.map scope.key).Duplicate key := by
    rw [← List.replicate_sublist_iff, List.duplicate_iff_sublist]
    rfl
  rw [length_membersOf, hduplicate, List.duplicate_iff_exists_distinct_get]
  constructor
  · rintro ⟨⟨i, hi⟩, ⟨j, hj⟩, hij, hd, hd'⟩
    rw [List.length_map] at hi hj
    rw [List.get_eq_getElem, List.getElem_map] at hd hd'
    exact ⟨i, j, definitions[i], definitions[j], hij, List.getElem?_eq_getElem hi,
      List.getElem?_eq_getElem hj, hd.symm, hd'.symm⟩
  · rintro ⟨i, j, d, d', hij, hd, hd', hkey, hkey'⟩
    obtain ⟨hi, rfl⟩ := List.getElem?_eq_some_iff.mp hd
    obtain ⟨hj, rfl⟩ := List.getElem?_eq_some_iff.mp hd'
    refine ⟨⟨i, by rwa [List.length_map]⟩, ⟨j, by rwa [List.length_map]⟩, hij, ?_, ?_⟩
    · rw [List.get_eq_getElem, List.getElem_map, hkey]
    · rw [List.get_eq_getElem, List.getElem_map, hkey']

/-- **A name is a duplicate if it stands at two positions**, in the same file if only one file
counts. -/
theorem mem_duplicateNames_iff_positions {name : String} :
    name ∈ duplicateNames scope definitions ↔
      ∃ (i j : Nat) (d d' : Definition), i < j ∧ definitions[i]? = some d ∧
        definitions[j]? = some d' ∧ d.name = name ∧ d'.name = name ∧
        (scope = .perFile → d.file = d'.file) := by
  simp only [mem_duplicateNames_iff_key, mem_duplicateKeys, two_le_length_membersOf_iff]
  constructor
  · rintro ⟨_, ⟨i, j, d, d', hij, hd, hd', hkey, rfl⟩, rfl⟩
    obtain ⟨hname, hfile⟩ := (scope.key_eq_iff d d').mp hkey
    rw [Scope.keyName_key]
    exact ⟨i, j, d, d', hij, hd, hd', hname, rfl, hfile⟩
  · rintro ⟨i, j, d, d', hij, hd, hd', hname, hname', hfile⟩
    have hkey : scope.key d = scope.key d' :=
      (scope.key_eq_iff d d').mpr ⟨hname.trans hname'.symm, hfile⟩
    refine ⟨scope.key d', ⟨i, j, d, d', hij, hd, hd', hkey, rfl⟩, ?_⟩
    rw [Scope.keyName_key, hname']

/-- What is defined twice in one file is defined twice. -/
theorem duplicateNames_perFile_subset {name : String}
    (h : name ∈ duplicateNames .perFile definitions) :
    name ∈ duplicateNames .repository definitions := by
  obtain ⟨i, j, d, d', hij, hd, hd', hname, hname', -⟩ := mem_duplicateNames_iff_positions.mp h
  exact mem_duplicateNames_iff_positions.mpr ⟨i, j, d, d', hij, hd, hd', hname, hname', nofun⟩

/-! ## Another order -/

variable {definitions' : List Definition}

theorem membersOf_perm (h : definitions.Perm definitions') (key : List String) :
    (membersOf scope definitions key).Perm (membersOf scope definitions' key) := h.filter _

theorem duplicateKeys_perm (h : definitions.Perm definitions') :
    duplicateKeys scope definitions = duplicateKeys scope definitions' := by
  have hkeys : scopeKeys scope definitions = scopeKeys scope definitions' := by
    refine congrArg Std.ExtTreeSet.toList (Std.ExtTreeSet.ext_mem fun key => ?_)
    simp only [Std.ExtTreeSet.mem_ofList, List.contains_iff_mem]
    exact (h.map scope.key).mem_iff
  rw [duplicateKeys, duplicateKeys, hkeys]
  refine List.filter_congr fun key _ => ?_
  rw [(membersOf_perm h key).length_eq]

/-- The order of the definitions does not matter for the names. -/
theorem duplicateNames_perm (h : definitions.Perm definitions') :
    duplicateNames scope definitions = duplicateNames scope definitions' := by
  refine Std.ExtTreeSet.ext_mem fun name => ?_
  rw [mem_duplicateNames_iff_key, mem_duplicateNames_iff_key, duplicateKeys_perm h]

/-- The order of the definitions matters only for the order in which each group lists its sites. -/
theorem duplicateGroups_perm (h : definitions.Perm definitions') :
    List.Forall₂ (fun group group' => group.name = group'.name ∧ group.sites.Perm group'.sites)
      (duplicateGroups scope definitions) (duplicateGroups scope definitions') := by
  rw [duplicateGroups_eq, duplicateGroups_eq, duplicateKeys_perm h, List.forall₂_map_left_iff,
    List.forall₂_map_right_iff, List.forall₂_same]
  intro key _
  exact ⟨rfl, (membersOf_perm h key).map _⟩

theorem duplicateGroups_eq_nil_iff :
    duplicateGroups scope definitions = [] ↔ duplicateNames scope definitions = ∅ := by
  rw [Std.ExtTreeSet.eq_empty_iff_forall_not_mem, List.eq_nil_iff_forall_not_mem]
  simp only [mem_duplicateNames_iff]
  constructor
  · rintro hnone name ⟨group, hgroup, -⟩
    exact hnone group hgroup
  · intro hnone group hgroup
    exact hnone group.name ⟨group, hgroup, rfl⟩

end

end ShellIndex
