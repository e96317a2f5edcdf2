import ShellIndex.Json.Printer

set_option autoImplicit false

/-! # The grammar of JSON

Which texts write a value: spaces may stand around the marks, and a character of a string may be
written as itself or in any of its escaped forms, among them a pair of surrogates. The grammar is that
of JSON without signs, fractions and exponents of numbers and without the words `true`, `false` and
`null`, none of which a value of `Json` has.

The main statement is that what is printed writes the value (`value_print`).
-/

namespace ShellIndex.Json.Grammar

/-! ## Characters and numbers -/

def isSpace (c : Char) : Bool := c == ' ' || c == '\t' || c == '\n' || c == '\r'

/-- Spaces that may stand around a mark. -/
def Spaces (s : List Char) : Prop := ∀ c ∈ s, isSpace c = true

/-- The value of a hexadecimal digit in lower or upper case. -/
def hexValue? (c : Char) : Option Nat :=
  if '0' ≤ c ∧ c ≤ '9' then some (c.toNat - '0'.toNat)
  else if 'a' ≤ c ∧ c ≤ 'f' then some (c.toNat - 'a'.toNat + 10)
  else if 'A' ≤ c ∧ c ≤ 'F' then some (c.toNat - 'A'.toNat + 10)
  else none

/-- The character that is written as a backslash and `mark`. -/
def escaped? (mark : Char) : Option Char :=
  match mark with
  | '"' => some '"'
  | '\\' => some '\\'
  | '/' => some '/'
  | 'b' => some '\x08'
  | 'f' => some '\x0c'
  | 'n' => some '\n'
  | 'r' => some '\r'
  | 't' => some '\t'
  | _ => none

/-- Four hexadecimal digits write a code unit. -/
inductive CodeUnit : List Char → Nat → Prop where
  | digits {a b c d : Char} {i j k l : Nat} (ha : hexValue? a = some i) (hb : hexValue? b = some j)
      (hc : hexValue? c = some k) (hd : hexValue? d = some l) :
      CodeUnit [a, b, c, d] (((i * 16 + j) * 16 + k) * 16 + l)

/-- The first half of a pair of surrogates. -/
def isHigh (n : Nat) : Bool := 0xD800 ≤ n && n < 0xDC00

/-- The second half of a pair of surrogates. -/
def isLow (n : Nat) : Bool := 0xDC00 ≤ n && n < 0xE000

/-- The code point that a pair of surrogates stands for. -/
def pairValue (high low : Nat) : Nat := 0x10000 + (high - 0xD800) * 0x400 + (low - 0xDC00)

/-- A text inside quotes writes one character. -/
inductive Character : List Char → Char → Prop where
  | plain {c : Char} (hquote : c ≠ '"') (hbackslash : c ≠ '\\') (hcontrol : 0x20 ≤ c.toNat) :
      Character [c] c
  | short {mark c : Char} (h : escaped? mark = some c) : Character ['\\', mark] c
  | code {s : List Char} {c : Char} (h : CodeUnit s c.toNat) : Character ('\\' :: 'u' :: s) c
  | pair {s t : List Char} {c : Char} {high low : Nat} (hs : CodeUnit s high) (ht : CodeUnit t low)
      (hhigh : isHigh high = true) (hlow : isLow low = true) (hc : c.toNat = pairValue high low) :
      Character ('\\' :: 'u' :: (s ++ '\\' :: 'u' :: t)) c

/-- A text inside quotes writes some characters. -/
inductive Characters : List Char → List Char → Prop where
  | nil : Characters [] []
  | cons {s t cs : List Char} {c : Char} (h : Character s c) (hrest : Characters t cs) :
      Characters (s ++ t) (c :: cs)

/-- Digits write a number, without zeros before it. -/
inductive Number : List Char → Nat → Prop where
  | zero : Number ['0'] 0
  | digits {c : Char} {s : List Char} (hzero : c ≠ '0') (hdigits : ∀ d ∈ c :: s, d.isDigit = true) :
      Number (c :: s) (Nat.ofDigitChars 10 (c :: s) 0)

/-! ## Values -/

mutual

/-- A text writes a value. -/
inductive Value : List Char → Json → Prop where
  | text {s t : List Char} (h : Characters s t) :
      Value ('"' :: (s ++ ['"'])) (.text (String.ofList t))
  | number {s : List Char} {n : Nat} (h : Number s n) : Value s (.number n)
  | emptyArray {w : List Char} (hw : Spaces w) : Value ('[' :: (w ++ [']'])) (.array [])
  | array {s : List Char} {items : List Json} (h : Items s items) :
      Value ('[' :: (s ++ [']'])) (.array items)
  | emptyObject {w : List Char} (hw : Spaces w) : Value ('\x7b' :: (w ++ ['\x7d'])) (.object [])
  | object {s : List Char} {fields : List (String × Json)} (h : Fields s fields) :
      Value ('\x7b' :: (s ++ ['\x7d'])) (.object fields)

/-- A text writes a value with spaces around it. -/
inductive Padded : List Char → Json → Prop where
  | mk {w s w' : List Char} {value : Json} (hw : Spaces w) (h : Value s value) (hw' : Spaces w') :
      Padded (w ++ s ++ w') value

/-- A text writes the items of an array. -/
inductive Items : List Char → List Json → Prop where
  | one {s : List Char} {item : Json} (h : Padded s item) : Items s [item]
  | more {s t : List Char} {item : Json} {items : List Json} (h : Padded s item)
      (hrest : Items t items) : Items (s ++ ',' :: t) (item :: items)

/-- A text writes a field of an object. -/
inductive Field : List Char → String × Json → Prop where
  | mk {w s w' t key : List Char} {value : Json} (hw : Spaces w) (hkey : Characters s key)
      (hw' : Spaces w') (h : Padded t value) :
      Field (w ++ '"' :: (s ++ '"' :: (w' ++ ':' :: t))) (String.ofList key, value)

/-- A text writes the fields of an object. -/
inductive Fields : List Char → List (String × Json) → Prop where
  | one {s : List Char} {field : String × Json} (h : Field s field) : Fields s [field]
  | more {s t : List Char} {field : String × Json} {fields : List (String × Json)}
      (h : Field s field) (hrest : Fields t fields) : Fields (s ++ ',' :: t) (field :: fields)

end

/-! ## What is printed -/

theorem spaces_nil : Spaces [] := nofun

theorem spaces_newLine (level : Nat) : Spaces (newLine level) := by
  intro c hc
  rcases List.mem_cons.mp hc with rfl | hc
  · rfl
  · obtain rfl := List.eq_of_mem_replicate hc
    rfl

theorem hexValue?_hexDigit : ∀ n < 16, hexValue? (hexDigit n) = some n := by decide

/-- A character is written in one of the escaped forms or as itself. -/
theorem character_escapeChar (c : Char) : Character (escapeChar c) c := by
  unfold escapeChar
  split
  · exact .short rfl
  · exact .short rfl
  · exact .short rfl
  · exact .short rfl
  · exact .short rfl
  · exact .short rfl
  · exact .short rfl
  · next hquote hbackslash _ _ _ _ _ =>
      split
      · next hcontrol =>
          apply Character.code
          have hhigh := hexValue?_hexDigit (c.toNat / 16) (by omega)
          have hlow := hexValue?_hexDigit (c.toNat % 16) (by omega)
          have hzero : hexValue? '0' = some 0 := rfl
          have hunit := CodeUnit.digits hzero hzero hhigh hlow
          have hvalue : ((0 * 16 + 0) * 16 + c.toNat / 16) * 16 + c.toNat % 16 = c.toNat := by omega
          rwa [hvalue] at hunit
      · next hcontrol => exact .plain hquote hbackslash (by omega)

theorem characters_flatMap (s : List Char) : Characters (s.flatMap escapeChar) s := by
  induction s with
  | nil => exact .nil
  | cons c s ih => exact .cons (character_escapeChar c) ih

/-- No number but zero starts with a zero. -/
theorem exists_cons_toDigits {n : Nat} (h : 0 < n) :
    ∃ c s, Nat.toDigits 10 n = c :: s ∧ c ≠ '0' := by
  induction n using Nat.strongRecOn with
  | ind n ih =>
      by_cases hsmall : n < 10
      · have hdigit : ∀ n < 10, 0 < n → Nat.digitChar n ≠ '0' := by decide
        exact ⟨_, [], Nat.toDigits_of_lt_base hsmall, hdigit n hsmall h⟩
      · obtain ⟨c, s, hs, hc⟩ := ih (n / 10) (by omega) (by omega)
        rw [Nat.toDigits_of_base_le (by omega) (by omega), hs]
        exact ⟨c, _, rfl, hc⟩

theorem number_toDigits (n : Nat) : Number (Nat.toDigits 10 n) n := by
  by_cases hn : n = 0
  · subst hn
    exact .zero
  · obtain ⟨c, s, hs, hc⟩ := exists_cons_toDigits (Nat.pos_of_ne_zero hn)
    have hdigits : ∀ d ∈ c :: s, d.isDigit = true := by
      rw [← hs]
      exact fun d hd => Nat.isDigit_of_mem_toDigits (by decide) (by decide) hd
    have hvalue := Nat.ofDigitChars_ten_toDigits (n := n)
    rw [hs] at hvalue ⊢
    have hnumber := Number.digits hc hdigits
    rwa [hvalue] at hnumber

theorem value_quote (s : String) : Value (quote s.toList) (.text s) := by
  have h := Value.text (characters_flatMap s.toList)
  rwa [String.ofList_toList] at h

/-- A field is printed with its value. -/
theorem field_print {w t w' : List Char} {value : Json} (hw : Spaces w) (h : Value t value)
    (hw' : Spaces w') (key : String) :
    Field (w ++ quote key.toList ++ [':', ' '] ++ t ++ w') (key, value) := by
  have hpadded := Padded.mk (w := [' ']) (by simp [Spaces, isSpace]) h hw'
  have hfield := Field.mk hw (characters_flatMap key.toList) spaces_nil hpadded
  rw [String.ofList_toList] at hfield
  simpa [quote] using hfield

mutual

/-- **What is printed writes the value**, at every level of nesting. -/
theorem value_print (level : Nat) : (value : Json) → Value (print level value) value
  | .text s => value_quote s
  | .number n => .number (number_toDigits n)
  | .array [] => .emptyArray spaces_nil
  | .array (item :: items) => by
      have hfirst := value_print (level + 1) item
      have harray := Value.array (items_print (level + 1) (spaces_newLine level) hfirst items)
      simpa [print] using harray
  | .object [] => .emptyObject spaces_nil
  | .object ((key, value) :: fields) => by
      have hfirst := value_print (level + 1) value
      have hobject := Value.object (fields_print (level + 1) (spaces_newLine level) key hfirst fields)
      simpa [print] using hobject

/-- The items behind the first, which `s` writes, end in the spaces before the closing mark. -/
theorem items_print (level : Nat) {s w : List Char} {item : Json} (hw : Spaces w)
    (h : Value s item) : (items : List Json) →
      Items (newLine level ++ s ++ (printItems level items ++ w)) (item :: items)
  | [] => .one (.mk (spaces_newLine level) h hw)
  | next :: items => by
      have hrest := items_print level hw (value_print level next) items
      have hitems := Items.more (.mk (spaces_newLine level) h spaces_nil) hrest
      simpa [printItems] using hitems

/-- The fields behind the first, whose value `s` writes. -/
theorem fields_print (level : Nat) {s w : List Char} {value : Json} (hw : Spaces w) (key : String)
    (h : Value s value) : (fields : List (String × Json)) →
      Fields (newLine level ++ quote key.toList ++ [':', ' '] ++ s ++ (printFields level fields ++ w))
        ((key, value) :: fields)
  | [] => .one (field_print (spaces_newLine level) h hw key)
  | (next, value') :: fields => by
      have hrest := fields_print level hw next (value_print level value') fields
      have hfirst := field_print (spaces_newLine level) h spaces_nil key
      have hfields := Fields.more hfirst hrest
      simpa [printFields] using hfields

end

/-- A printed value writes the value as a text of its own. -/
theorem padded_pretty (value : Json) {w : List Char} (hw : Spaces w) :
    Padded (value.pretty.toList ++ w) value := by
  rw [pretty, String.toList_ofList]
  exact .mk spaces_nil (value_print 0 value) hw

end ShellIndex.Json.Grammar
