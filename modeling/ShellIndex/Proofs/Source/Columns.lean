import Mathlib.Data.List.Forall2
import ShellIndex.Proofs.Source.Heredocs
import ShellIndex.Proofs.Source.LineEnd

set_option autoImplicit false

/-! # The columns of a line

Every character of a line is shown or masked (`MaskedView`), whatever encloses it, and the comment
that ends the line is masked as a whole (`KeepsColumns`). A masked character leaves one space for each
of its bytes, so that what is shown stands at its own offset.
-/

namespace ShellIndex.Source

open Text

/-! ## Masked views -/

/-- The bytes of a text in UTF-8. -/
def bytes (s : List Char) : List UInt8 := s.flatMap String.utf8EncodeChar

/-- `code` is `raw` with some of its characters masked. -/
inductive MaskedView : List Char → List Char → Prop where
  /-- Of an empty text. -/
  | nil : MaskedView [] []
  /-- The first character is shown. -/
  | shown (c : Char) {raw code : List Char} (h : MaskedView raw code) :
      MaskedView (c :: raw) (c :: code)
  /-- The first character is masked. -/
  | masked (c : Char) {raw code : List Char} (h : MaskedView raw code) :
      MaskedView (c :: raw) (maskChar c ++ code)

theorem MaskedView.mask (s : List Char) : MaskedView s (mask s) := by
  induction s with
  | nil => exact .nil
  | cons c s ih => exact ih.masked c

theorem bytes_append (s t : List Char) : bytes (s ++ t) = bytes s ++ bytes t :=
  List.flatMap_append

theorem bytes_cons (c : Char) (s : List Char) : bytes (c :: s) = String.utf8EncodeChar c ++ bytes s :=
  List.flatMap_cons

theorem utf8EncodeChar_space : String.utf8EncodeChar ' ' = [0x20] := by decide

/-- A character leaves as many spaces as it has bytes. -/
theorem bytes_maskChar (c : Char) :
    bytes (maskChar c) = List.replicate (String.utf8EncodeChar c).length 0x20 := by
  rw [maskChar, String.length_utf8EncodeChar]
  induction c.utf8Size with
  | zero => rfl
  | succ n ih => rw [List.replicate_succ, bytes_cons, utf8EncodeChar_space, ih, List.replicate_succ]; rfl

theorem eq_space_of_mem_bytes_mask {s : List Char} {b : UInt8} (h : b ∈ bytes (mask s)) :
    b = 0x20 := by
  obtain ⟨c, hc, hb⟩ := List.mem_flatMap.mp h
  rw [mem_mask hc, utf8EncodeChar_space] at hb
  exact List.mem_singleton.mp hb

/-- Byte by byte a masked view agrees with the text or shows a space. -/
theorem MaskedView.forall₂_bytes {raw code : List Char} (h : MaskedView raw code) :
    List.Forall₂ (fun b shown => shown = b ∨ shown = 0x20) (bytes raw) (bytes code) := by
  induction h with
  | nil => exact .nil
  | @shown c raw code _ ih =>
      rw [bytes_cons, bytes_cons]
      refine List.rel_append (List.forall₂_same.mpr fun b _ => ?_) ih
      exact Or.inl rfl
  | @masked c raw code _ ih =>
      rw [bytes_cons, bytes_append, bytes_maskChar]
      refine List.rel_append ?_ ih
      induction String.utf8EncodeChar c with
      | nil => exact .nil
      | cons b bs ih => exact .cons (Or.inr rfl) ih

theorem MaskedView.length_bytes {raw code : List Char} (h : MaskedView raw code) :
    (bytes code).length = (bytes raw).length :=
  h.forall₂_bytes.length_eq.symm

/-- What is no space in a masked view stands there in the text. -/
theorem MaskedView.getElem?_bytes {raw code : List Char} (h : MaskedView raw code) {i : Nat}
    {b : UInt8} (hb : (bytes code)[i]? = some b) (hshown : b ≠ 0x20) :
    (bytes raw)[i]? = some b := by
  obtain ⟨hi, rfl⟩ := List.getElem?_eq_some_iff.mp hb
  have hi' : i < (bytes raw).length := h.length_bytes ▸ hi
  rcases h.forall₂_bytes.get hi' hi with heq | hspace
  · rw [List.getElem?_eq_getElem hi']
    exact congrArg some heq.symm
  · exact absurd hspace hshown

/-! ## A line and its view -/

/-- `code` is a masked view of `raw`, in which the comment of the line is masked with its sign. -/
structure KeepsColumns (raw code : List Char) (comment : Option (List Char)) : Prop where
  view : MaskedView raw code
  comment_masked : ∀ text, comment = some text → ∃ front shown, raw = front ++ '#' :: text ∧
    code = shown ++ mask ('#' :: text) ∧ MaskedView front shown

namespace KeepsColumns
variable {raw code : List Char} {text? : Option (List Char)}

theorem nil : KeepsColumns [] [] none := ⟨.nil, fun _ h => nomatch h⟩

/-- A comment is masked up to the end of its line. -/
theorem comment (text : List Char) :
    KeepsColumns ('#' :: text) (mask ('#' :: text)) (some text) := by
  refine ⟨.mask _, fun other h => ?_⟩
  obtain rfl := Option.some.inj h
  exact ⟨[], [], rfl, rfl, .nil⟩

theorem shown (h : KeepsColumns raw code text?) (c : Char) :
    KeepsColumns (c :: raw) (c :: code) text? := by
  refine ⟨h.view.shown c, fun text htext => ?_⟩
  obtain ⟨front, view, hraw, hcode, hview⟩ := h.comment_masked text htext
  exact ⟨c :: front, c :: view, by rw [hraw]; rfl, by rw [hcode]; rfl, hview.shown c⟩

theorem masked (h : KeepsColumns raw code text?) (c : Char) :
    KeepsColumns (c :: raw) (maskChar c ++ code) text? := by
  refine ⟨h.view.masked c, fun text htext => ?_⟩
  obtain ⟨front, view, hraw, hcode, hview⟩ := h.comment_masked text htext
  exact ⟨c :: front, maskChar c ++ view, by rw [hraw]; rfl, by rw [hcode, List.append_assoc],
    hview.masked c⟩

end KeepsColumns

/-- The reader adds a view of the line to what it has shown: at every character it shows one
character or masks one, and at a comment it masks the rest. -/
theorem Reader.exists_view_run (r : Reader) (s : List Char) : ∃ view,
    (r.run s).1.code.reverse = r.code.reverse ++ view ∧ KeepsColumns s view (r.run s).2 := by
  induction s generalizing r with
  | nil => exact ⟨[], (List.append_nil _).symm, .nil⟩
  | cons c s ih =>
      rw [run]
      split
      · next hopens =>
          obtain ⟨rfl, -⟩ := opensComment_iff.mp hopens
          refine ⟨mask ('#' :: s), ?_, .comment s⟩
          rw [List.reverse_append, mask_eq_replicate, List.reverse_replicate]
      · obtain ⟨view, hcode, hkeeps⟩ := ih (r.step c s)
        rcases r.code_step c s with hstep | hstep
        · refine ⟨maskChar c ++ view, ?_, hkeeps.masked c⟩
          rw [hcode, hstep, List.reverse_append, List.append_assoc]
          simp [maskChar]
        · refine ⟨c :: view, ?_, hkeeps.shown c⟩
          rw [hcode, hstep, List.reverse_cons, List.append_assoc, List.singleton_append]

theorem Open.keepsColumns_read (o : Open) (raw : List Char) :
    KeepsColumns raw (o.read raw).code (o.read raw).comment := by
  rw [read]
  cases o.heredocs with
  | nil =>
      obtain ⟨view, hcode, hkeeps⟩ := (Reader.start o.contexts).exists_view_run raw
      have hview : ((Reader.start o.contexts).run raw).1.code.reverse = view := hcode
      rw [← hview] at hkeeps
      exact hkeeps
  | cons doc more =>
      refine ⟨.mask raw, fun comment hcomment => ?_⟩
      cases hcomment

theorem Open.map_raw_scan (o : Open) (number : Nat) (raws : List (List Char)) :
    (o.scan number raws).map Line.raw = raws := by
  induction raws generalizing o number with
  | nil => rfl
  | cons raw raws ih => rw [scan, List.map_cons, ih]

theorem Open.map_number_scan (o : Open) (number : Nat) (raws : List (List Char)) :
    (o.scan number raws).map Line.number = List.range' number raws.length := by
  induction raws generalizing o number with
  | nil => rfl
  | cons raw raws ih => rw [scan, List.map_cons, ih, List.length_cons, List.range'_succ]

theorem keepsColumns_of_mem_scan {text : String} {l : Line} (h : l ∈ scan text) :
    KeepsColumns l.raw l.code l.comment := by
  obtain ⟨above, line, -, -, rfl⟩ := Open.exists_line_of_mem_scan h
  exact (Open.nothing.after above).keepsColumns_read line

/-- **A scan keeps lines and columns.** It gives every line of the script once, in order and numbered
from one. The view of a line has its bytes, except for spaces where characters are masked; from the
`#` of a comment on there are only spaces. -/
theorem scan_keeps_columns (text : String) :
    (scan text).map Line.raw = lines text.toList ∧
    (scan text).map Line.number = List.range' 1 (lines text.toList).length ∧
    ∀ l ∈ scan text, MaskedView l.raw l.code ∧
      (bytes l.code).length = (bytes l.raw).length ∧
      (∀ (i : Nat) (b : UInt8), (bytes l.code)[i]? = some b → b ≠ 0x20 →
        (bytes l.raw)[i]? = some b) ∧
      ∀ comment, l.comment = some comment → ∃ front, l.raw = front ++ '#' :: comment ∧
        ∀ b ∈ (bytes l.code).drop (bytes front).length, b = 0x20 := by
  refine ⟨Open.map_raw_scan .., Open.map_number_scan .., fun l hl => ?_⟩
  have hkeeps := keepsColumns_of_mem_scan hl
  refine ⟨hkeeps.view, hkeeps.view.length_bytes, fun i b => hkeeps.view.getElem?_bytes, ?_⟩
  intro comment hcomment
  obtain ⟨front, shown, hraw, hcode, hview⟩ := hkeeps.comment_masked comment hcomment
  refine ⟨front, hraw, fun b hb => eq_space_of_mem_bytes_mask (s := '#' :: comment) ?_⟩
  rwa [hcode, bytes_append, ← hview.length_bytes, List.drop_left] at hb

/-- A character of two bytes is masked by two spaces, and the comment behind it stays in its place. -/
example : (scan "a 'é' # b").map Line.code = ["a '  '    ".toList] := by decide +kernel

end ShellIndex.Source
