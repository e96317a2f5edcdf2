import ShellIndex.Proofs.Source.Columns

set_option autoImplicit false

/-! # Texts by their bytes

A reader that walks over the bytes of a text compares each of them with marks of ASCII. A byte is
given here as the character with its number (`octets`), so that what is defined on characters can be
read byte by byte: a character of ASCII is its own octet, and the octets of any other character are
no characters of ASCII. What treats all characters outside of ASCII alike is therefore the same for
the octets as for the text.

Positions are numbers of bytes. A text can be cut only between two characters (`splitAt?`), which is
where the standard library has its valid positions (`IsBoundary`).
-/

namespace ShellIndex.Text

open Source

/-- The bytes of a text, each as the character with its number. -/
def octets (s : List Char) : List Char := (bytes s).map Char.ofUInt8

/-- Whether a character belongs to ASCII. -/
def isAscii (c : Char) : Bool := c.toNat < 128

/-- A number of bytes at which a text can be cut: no more than it has, and not within one of its
characters. -/
def IsBoundary (s : List Char) (pos : Nat) : Prop := String.Pos.Raw.IsValid (String.ofList s) ⟨pos⟩

/-- The text before byte `pos` and from there on. There is no such split if `pos` is out of range or
within a character. -/
def splitAt? (s : List Char) (pos : Nat) : Option (List Char × List Char) :=
  ((String.ofList s).pos? ⟨pos⟩).map fun p =>
    (((String.ofList s).sliceTo p).copy.toList, ((String.ofList s).sliceFrom p).copy.toList)

/-- The text from byte `pos` on. -/
def sliceFrom? (s : List Char) (pos : Nat) : Option (List Char) := (splitAt? s pos).map Prod.snd

/-- The text from byte `start` up to byte `stop`. -/
def slice? (s : List Char) (start stop : Nat) : Option (List Char) :=
  if start ≤ stop then
    (sliceFrom? s start).bind fun rest => (splitAt? rest (stop - start)).map Prod.fst
  else none

section
variable {c : Char} {s : List Char} {pos : Nat}

/-! ## Octets -/

theorem octets_append (s t : List Char) : octets (s ++ t) = octets s ++ octets t := by
  rw [octets, bytes_append, List.map_append]
  rfl

theorem octets_cons (c : Char) (s : List Char) : octets (c :: s) = octets [c] ++ octets s :=
  octets_append [c] s

theorem octets_singleton (c : Char) : octets [c] = (String.utf8EncodeChar c).map Char.ofUInt8 := by
  rw [octets, bytes_cons]
  simp [bytes]

theorem length_octets (s : List Char) : (octets s).length = byteLength s := by
  induction s with
  | nil => rfl
  | cons c s ih =>
      rw [octets_cons, List.length_append, ih, octets_singleton, List.length_map,
        String.length_utf8EncodeChar, byteLength_cons]

theorem octets_singleton_ne_nil (c : Char) : octets [c] ≠ [] := by
  intro hnil
  have hlength := length_octets [c]
  rw [hnil, byteLength_cons, List.length_nil] at hlength
  have hpos := c.utf8Size_pos
  omega

theorem byteLength_eq_zero_iff : byteLength s = 0 ↔ s = [] := by
  rw [← length_octets, List.length_eq_zero_iff]
  cases s with
  | nil => exact ⟨fun _ => rfl, fun _ => rfl⟩
  | cons c s =>
      rw [octets_cons]
      simp [octets_singleton_ne_nil]

theorem ne_of_isAscii {a : Char} (hc : isAscii c = false) (ha : isAscii a = true) : c ≠ a := by
  rintro rfl
  rw [ha] at hc
  cases hc

/-- A character of ASCII is its own octet. -/
theorem octets_cons_of_isAscii (h : isAscii c = true) (s : List Char) :
    octets (c :: s) = c :: octets s := by
  have hval : c.val.toNat < 128 := of_decide_eq_true h
  have hle : c.val ≤ 127 := by
    rw [UInt32.le_iff_toNat_le]
    exact Nat.le_of_lt_succ hval
  have hsize : c.utf8Size = 1 := Char.utf8Size_eq_one_iff.mpr hle
  have hsame : Char.ofUInt8 c.val.toUInt8 = c := by
    apply Char.ext
    apply UInt32.toNat_inj.mp
    show c.val.toUInt8.toUInt32.toNat = c.val.toNat
    rw [UInt8.toNat_toUInt32, UInt32.toNat_toUInt8]
    omega
  rw [octets_cons, octets_singleton, String.utf8EncodeChar_eq_singleton hsize, List.map_singleton,
    hsame, List.singleton_append]

/-- No octet of any other character belongs to ASCII. -/
theorem not_isAscii_of_mem_octets (h : isAscii c = false) {d : Char} (hd : d ∈ octets [c]) :
    isAscii d = false := by
  have hval : 127 < c.val.toNat := Nat.le_of_not_lt (of_decide_eq_false h)
  rw [octets_singleton] at hd
  obtain ⟨b, hb, rfl⟩ := List.mem_map.mp hd
  refine decide_eq_false (Nat.not_lt.mpr ?_)
  show 128 ≤ b.toUInt32.toNat
  rw [UInt8.toNat_toUInt32]
  -- The first byte is at least 192, and all others lie between 128 and 191.
  simp only [String.utf8EncodeChar, Nat.not_le.mpr hval, if_false] at hb
  split at hb
  · simp only [List.mem_cons, List.not_mem_nil, or_false] at hb
    rcases hb with rfl | rfl <;> simp only [UInt8.toNat_ofNat'] <;> omega
  · split at hb
    · simp only [List.mem_cons, List.not_mem_nil, or_false] at hb
      rcases hb with rfl | rfl | rfl <;> simp only [UInt8.toNat_ofNat'] <;> omega
    · simp only [List.mem_cons, List.not_mem_nil, or_false] at hb
      rcases hb with rfl | rfl | rfl | rfl <;> simp only [UInt8.toNat_ofNat'] <;> omega

/-- The octets of a text can be cut where the text can. -/
theorem take_octets (front rest : List Char) :
    (octets (front ++ rest)).take (byteLength front) = octets front := by
  rw [octets_append, ← length_octets, List.take_left]

theorem drop_octets (front rest : List Char) :
    (octets (front ++ rest)).drop (byteLength front) = octets rest := by
  rw [octets_append, ← length_octets, List.drop_left]

theorem getElem?_octets (front rest : List Char) :
    (octets (front ++ rest))[byteLength front]? = (octets rest).head? := by
  rw [← List.head?_drop, drop_octets]

/-- A character of ASCII is the first octet where it is the first character. -/
theorem head?_octets {a : Char} (ha : isAscii a = true) (s : List Char) :
    (octets s).head? = some a ↔ s.head? = some a := by
  cases s with
  | nil => rfl
  | cons c s =>
      cases hc : isAscii c with
      | true => rw [octets_cons_of_isAscii hc, List.head?_cons, List.head?_cons]
      | false =>
          obtain ⟨d, ds, hds⟩ := List.exists_cons_of_ne_nil (octets_singleton_ne_nil c)
          have hd : isAscii d = false := not_isAscii_of_mem_octets hc (by simp [hds])
          rw [octets_cons, hds, List.cons_append, List.head?_cons, List.head?_cons]
          simp [ne_of_isAscii hc ha, ne_of_isAscii hd ha]

/-- A character of ASCII is the last octet where it is the last character. -/
theorem getLast?_octets {a : Char} (ha : isAscii a = true) (s : List Char) :
    (octets s).getLast? = some a ↔ s.getLast? = some a := by
  rcases s.eq_nil_or_concat with rfl | ⟨s, c, rfl⟩
  · rfl
  rw [List.concat_eq_append, octets_append, List.getLast?_append, List.getLast?_append]
  cases hc : isAscii c with
  | true => rw [octets_cons_of_isAscii hc]; rfl
  | false =>
      have hlast := List.getLast?_eq_some_getLast (octets_singleton_ne_nil c)
      have hd := not_isAscii_of_mem_octets hc (List.mem_of_getLast? hlast)
      rw [hlast]
      simp [ne_of_isAscii hc ha, ne_of_isAscii hd ha]

/-- A run of characters that holds all those outside of ASCII is the same run of octets. -/
theorem takeWhile_octets {P : Char → Bool} (hP : ∀ c, isAscii c = false → P c = true)
    (s : List Char) : (octets s).takeWhile P = octets (s.takeWhile P) := by
  induction s with
  | nil => rfl
  | cons c s ih =>
      cases hc : isAscii c with
      | true =>
          rw [octets_cons_of_isAscii hc]
          cases hPc : P c with
          | true =>
              rw [List.takeWhile_cons_of_pos hPc, List.takeWhile_cons_of_pos hPc, ih,
                octets_cons_of_isAscii hc]
          | false => simp [hPc]; rfl
      | false =>
          have hrun : ∀ e ∈ octets [c], P e = true := fun e he =>
            hP e (not_isAscii_of_mem_octets hc he)
          rw [List.takeWhile_cons_of_pos (hP c hc), octets_cons, List.takeWhile_append_of_pos hrun,
            ih, ← octets_cons]

/-! ## Positions -/

theorem utf8ByteSize_ofList (s : List Char) : (String.ofList s).utf8ByteSize = byteLength s := by
  induction s with
  | nil => simp
  | cons c s ih => simp [String.ofList_cons, ih]

theorem rawEndPos_ofList (s : List Char) : (String.ofList s).rawEndPos = ⟨byteLength s⟩ := by
  rw [← utf8ByteSize_ofList]
  rfl

theorem isBoundary_append (front rest : List Char) :
    IsBoundary (front ++ rest) (byteLength front) := by
  refine String.Pos.Raw.isValid_iff_exists_append.mpr ⟨String.ofList front, String.ofList rest, ?_⟩
  exact ⟨String.ofList_append, (rawEndPos_ofList front).symm⟩

theorem IsBoundary.exists_append (h : IsBoundary s pos) :
    ∃ front rest, s = front ++ rest ∧ byteLength front = pos := by
  obtain ⟨front, rest, hsplit, hend⟩ := String.Pos.Raw.isValid_iff_exists_append.mp h
  refine ⟨front.toList, rest.toList, ?_, ?_⟩
  · rw [← String.toList_append, ← hsplit, String.toList_ofList]
  · rw [← utf8ByteSize_ofList, String.ofList_toList]
    exact (congrArg String.Pos.Raw.byteIdx hend).symm

theorem IsBoundary.le (h : IsBoundary s pos) : pos ≤ byteLength s := by
  have hle := h.le_utf8ByteSize
  rwa [utf8ByteSize_ofList] at hle

theorem pos?_of_isValid {s : String} {p : String.Pos.Raw} (h : p.IsValid s) :
    s.pos? p = some (s.pos p h) := by
  have hslice : p.isValidForSlice s.toSlice = true :=
    String.Pos.Raw.isValidForSlice_eq_true_iff.mpr h.toSlice
  rw [String.pos?, String.Slice.pos?, dif_pos hslice]
  rfl

theorem splitAt?_append (front rest : List Char) :
    splitAt? (front ++ rest) (byteLength front) = some (front, rest) := by
  have hvalid := isBoundary_append front rest
  have hsplits : ((String.ofList (front ++ rest)).pos ⟨byteLength front⟩ hvalid).Splits
      (String.ofList front) (String.ofList rest) :=
    ⟨String.ofList_append, (rawEndPos_ofList front).symm⟩
  obtain ⟨hfront, hrest⟩ := (String.Pos.splits _).eq hsplits
  rw [splitAt?, pos?_of_isValid hvalid, Option.map_some, hfront, hrest, String.toList_ofList,
    String.toList_ofList]

/-- A text can be split where it can be cut and nowhere else. -/
theorem splitAt?_isSome_iff : (splitAt? s pos).isSome = true ↔ IsBoundary s pos := by
  rw [splitAt?, Option.isSome_map]
  constructor
  · intro h
    rw [String.pos?, Option.isSome_map, String.Slice.pos?] at h
    split at h
    · next hslice =>
        exact String.Pos.Raw.isValidForSlice_toSlice_iff.mp
          (String.Pos.Raw.isValidForSlice_eq_true_iff.mp hslice)
    · cases h
  · intro h
    rw [pos?_of_isValid h]
    rfl

example : splitAt? ['é', 'x'] 2 = some (['é'], ['x']) := by decide
example : splitAt? ['é', 'x'] 1 = none := by decide

theorem sliceFrom?_append (front rest : List Char) :
    sliceFrom? (front ++ rest) (byteLength front) = some rest := by
  rw [sliceFrom?, splitAt?_append, Option.map_some]

theorem exists_of_sliceFrom? {rest : List Char} (h : sliceFrom? s pos = some rest) :
    ∃ front, s = front ++ rest ∧ byteLength front = pos := by
  obtain ⟨parts, hparts, rfl⟩ := Option.map_eq_some_iff.mp h
  have hboundary := splitAt?_isSome_iff.mp (Option.isSome_of_eq_some hparts)
  obtain ⟨front, rest, rfl, rfl⟩ := hboundary.exists_append
  rw [splitAt?_append] at hparts
  obtain rfl := Option.some.inj hparts
  exact ⟨front, rfl, rfl⟩

theorem slice?_append (front text rest : List Char) :
    slice? (front ++ (text ++ rest)) (byteLength front) (byteLength (front ++ text)) =
      some text := by
  rw [byteLength_append, slice?, if_pos (Nat.le_add_right _ _), sliceFrom?_append, Option.bind_some,
    Nat.add_sub_cancel_left, splitAt?_append, Option.map_some]

end

end ShellIndex.Text
