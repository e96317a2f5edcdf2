set_option autoImplicit false

/-! # Masking a character

A character that is not code is masked: it is replaced by one space for each byte of its
UTF-8 form. A masked text has the byte length of the text itself, so that what stays
visible keeps its column.
-/

namespace ShellIndex.Text

/-- The number of bytes of a text in UTF-8. -/
def byteLength : List Char → Nat
  | [] => 0
  | c :: s => c.utf8Size + byteLength s

/-- One space for each byte of a character. -/
def maskChar (c : Char) : List Char := List.replicate c.utf8Size ' '

/-- One space for each byte of a text. -/
def mask (s : List Char) : List Char := s.flatMap maskChar

/-! ## Byte lengths -/

@[simp] theorem byteLength_nil : byteLength [] = 0 := rfl

@[simp] theorem byteLength_cons (c : Char) (s : List Char) :
    byteLength (c :: s) = c.utf8Size + byteLength s := rfl

@[simp] theorem byteLength_append (s t : List Char) :
    byteLength (s ++ t) = byteLength s + byteLength t := by
  induction s with
  | nil => simp
  | cons c s ih => rw [List.cons_append, byteLength_cons, ih, byteLength_cons, Nat.add_assoc]

theorem byteLength_replicate (n : Nat) (c : Char) :
    byteLength (List.replicate n c) = n * c.utf8Size := by
  induction n with
  | zero => rw [List.replicate_zero, byteLength_nil, Nat.zero_mul]
  | succ n ih => rw [List.replicate_succ, byteLength_cons, ih, Nat.succ_mul, Nat.add_comm]

@[simp] theorem byteLength_maskChar (c : Char) : byteLength (maskChar c) = c.utf8Size := by
  have space : (' ' : Char).utf8Size = 1 := by decide
  rw [maskChar, byteLength_replicate, space, Nat.mul_one]

@[simp] theorem byteLength_mask (s : List Char) : byteLength (mask s) = byteLength s := by
  induction s with
  | nil => rfl
  | cons c s ih =>
      show byteLength (maskChar c ++ mask s) = byteLength (c :: s)
      rw [byteLength_append, byteLength_maskChar, ih, byteLength_cons]

end ShellIndex.Text
