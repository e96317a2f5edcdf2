import ShellIndex.Text.Blank

set_option autoImplicit false

/-! # Definition headers

A function definition starts with `function NAME`, `function NAME ()` or `NAME ()`, where
inline blanks may stand around and inside the parentheses, and may go on with the brace
that opens the body. A name is as long as it can be.

The form with the keyword is tried first. The word `function` itself is a name when no
name follows it.
-/

namespace ShellIndex.Definition

open Text

/-- A character that a function name may start with. -/
def isNameStart (c : Char) : Bool :=
  c.isAlphanum || c == '_' || c == ':' || c == '.' || c == '@' || c == '+'

/-- A character that a function name may go on with. -/
def isNamePart (c : Char) : Bool := isNameStart c || c == '-'

/-- The header at the start of a text. -/
structure Header where
  /-- The name that is defined. -/
  name : List Char
  /-- Whether the brace that opens the body follows. -/
  opensBody : Bool
  /-- The text after the header, and after the brace if there is one. -/
  rest : List Char
deriving DecidableEq, Repr

namespace Header

/-- The text after `function` and the inline blanks that must follow it. -/
def afterKeyword? : List Char → Option (List Char)
  | 'f' :: 'u' :: 'n' :: 'c' :: 't' :: 'i' :: 'o' :: 'n' :: c :: rest =>
      if isInlineBlank c then some (skipInline rest) else none
  | _ => none

/-- The name at the start of a text, and the text after it. -/
def readName? : List Char → Option (List Char × List Char)
  | [] => none
  | c :: rest =>
      if isNameStart c then some (c :: rest.takeWhile isNamePart, rest.dropWhile isNamePart)
      else none

/-- The text after an empty pair of parentheses. -/
def afterParens? (s : List Char) : Option (List Char) :=
  match skipInline s with
  | '(' :: inner =>
      match skipInline inner with
      | ')' :: rest => some rest
      | _ => none
  | _ => none

/-- The name of the form with the keyword, and the text after it. -/
def readKeywordForm? (s : List Char) : Option (List Char × List Char) :=
  match afterKeyword? s with
  | none => none
  | some s => (readName? s).map fun (name, rest) => (name, (afterParens? rest).getD rest)

/-- The name of the form without the keyword, and the text after it. -/
def readParensForm? (s : List Char) : Option (List Char × List Char) :=
  match readName? s with
  | none => none
  | some (name, rest) => (afterParens? rest).map fun rest => (name, rest)

/-- A header is completed by the brace that follows it. -/
def ofNamed (named : List Char × List Char) : Header :=
  match skipInline named.2 with
  | '{' :: rest => ⟨named.1, true, rest⟩
  | rest => ⟨named.1, false, rest⟩

/-- The header at the start of a text, after inline blanks. -/
def read? (s : List Char) : Option Header :=
  let s := skipInline s
  ((readKeywordForm? s).or (readParensForm? s)).map ofNamed

/-! ## The rest of the text is no longer than the text -/

theorem length_afterKeyword?_le {s rest : List Char} (h : afterKeyword? s = some rest) :
    rest.length ≤ s.length := by
  unfold afterKeyword? at h
  split at h
  · split at h
    · simp only [Option.some.injEq] at h
      subst h
      have := length_skipInline_le
      simp only [List.length_cons]
      refine Nat.le_trans (length_skipInline_le _) ?_
      omega
    · simp at h
  · simp at h

theorem length_readName?_le {s name rest : List Char} (h : readName? s = some (name, rest)) :
    rest.length ≤ s.length := by
  cases s with
  | nil => simp [readName?] at h
  | cons c s =>
      rw [readName?] at h
      split at h
      · simp only [Option.some.injEq, Prod.mk.injEq] at h
        obtain ⟨_, rfl⟩ := h
        refine Nat.le_trans (List.dropWhile_suffix _).length_le ?_
        simp
      · simp at h

theorem length_afterParens?_le {s rest : List Char} (h : afterParens? s = some rest) :
    rest.length ≤ s.length := by
  unfold afterParens? at h
  split at h
  · next inner hs =>
      split at h
      · next rest' hi =>
          simp only [Option.some.injEq] at h
          subst h
          have h₁ := length_skipInline_le s
          have h₂ := length_skipInline_le inner
          rw [hs, List.length_cons] at h₁
          rw [hi, List.length_cons] at h₂
          omega
      · simp at h
  · simp at h

theorem length_ofNamed_le (named : List Char × List Char) :
    (ofNamed named).rest.length ≤ named.2.length := by
  have h := length_skipInline_le named.2
  unfold ofNamed
  split
  · next rest hs =>
      rw [hs, List.length_cons] at h
      exact Nat.le_of_succ_le h
  · exact h

theorem length_read?_le {s : List Char} {header : Header} (h : read? s = some header) :
    header.rest.length ≤ s.length := by
  simp only [read?, Option.map_eq_some_iff, Option.or_eq_some_iff] at h
  obtain ⟨named, hn, rfl⟩ := h
  refine Nat.le_trans (length_ofNamed_le named) ?_
  refine Nat.le_trans ?_ (length_skipInline_le s)
  rcases hn with hn | ⟨_, hn⟩
  · unfold readKeywordForm? at hn
    split at hn
    · simp at hn
    · next s' hs =>
        simp only [Option.map_eq_some_iff, Prod.exists] at hn
        obtain ⟨name, rest, hr, rfl⟩ := hn
        refine Nat.le_trans ?_ (length_afterKeyword?_le hs)
        refine Nat.le_trans ?_ (length_readName?_le hr)
        cases hp : afterParens? rest with
        | none => simp
        | some rest' => simpa using length_afterParens?_le hp
  · unfold readParensForm? at hn
    split at hn
    · simp at hn
    · next name rest hr =>
        simp only [Option.map_eq_some_iff] at hn
        obtain ⟨rest', hp, rfl⟩ := hn
        exact Nat.le_trans (length_afterParens?_le hp) (length_readName?_le hr)

end Header

end ShellIndex.Definition
