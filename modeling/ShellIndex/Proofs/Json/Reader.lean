import ShellIndex.Proofs.Json.Grammar

set_option autoImplicit false

/-! # Reading JSON

A text is read character by character. What the next character is inside of is kept as frames,
innermost first, and what may come next as a mode. Every character takes one step, so that the
reader is followed through a text piece by piece.

The reader accepts every text that the grammar allows, with the value that the text writes
(`read?_of_padded`). So no text writes two values.
-/

namespace ShellIndex.Json

open Grammar

/-! ## The reader -/

/-- What a value stands in. -/
inductive Frame where
  /-- An array, with the items before the value, nearest first. -/
  | array (before : List Json)
  /-- An object, with the fields before the value, nearest first, and its key. -/
  | object (before : List (String × Json)) (key : String)

/-- What a string is. -/
inductive Role where
  | value
  /-- A key behind the given fields, nearest first. -/
  | key (before : List (String × Json))

/-- What is decided about the next character of a string. -/
inductive Pending where
  | nothing
  /-- It follows a backslash. -/
  | escape
  /-- It is a digit of a code unit, and `left` more will follow. The digits before have the value
  `sofar`. A unit that follows the first half of a pair is the second. -/
  | unit (high : Option Nat) (left sofar : Nat)
  /-- It is the backslash of the second half of a pair, or the `u` behind it. -/
  | second (high : Nat) (backslash : Bool)
deriving DecidableEq

/-- What may come next. -/
inductive Mode where
  | value
  /-- The first item of an array or its end. -/
  | firstItem
  /-- The first key of an object or its end. -/
  | firstKey
  | key (before : List (String × Json))
  | colon (before : List (String × Json)) (key : String)
  /-- What may follow a value. -/
  | behind (value : Json)
  /-- A further digit of a number, or what may follow it. -/
  | number (n : Nat)
  /-- The rest of a string, of which `before` has been read, nearest first. -/
  | string (role : Role) (before : List Char) (pending : Pending)

/-- A text that has been read up to some character. -/
structure Reader where
  mode : Mode
  frames : List Frame

namespace Reader

/-- Reads the first character of a value. -/
def startValue (frames : List Frame) (c : Char) : Option Reader :=
  match c with
  | '"' => some ⟨.string .value [] .nothing, frames⟩
  | '[' => some ⟨.firstItem, frames⟩
  | '\x7b' => some ⟨.firstKey, frames⟩
  | _ => if c.isDigit then some ⟨.number (c.toNat - '0'.toNat), frames⟩ else none

/-- Reads the quote that starts a key. -/
def startKey (before : List (String × Json)) (frames : List Frame) (c : Char) : Option Reader :=
  if c = '"' then some ⟨.string (.key before) [] .nothing, frames⟩ else none

/-- Reads a mark behind a value. -/
def goOn (value : Json) (frames : List Frame) (c : Char) : Option Reader :=
  match c, frames with
  | ',', .array before :: outer => some ⟨.value, .array (value :: before) :: outer⟩
  | ']', .array before :: outer => some ⟨.behind (.array (value :: before).reverse), outer⟩
  | ',', .object before key :: outer => some ⟨.key ((key, value) :: before), outer⟩
  | '\x7d', .object before key :: outer =>
      some ⟨.behind (.object ((key, value) :: before).reverse), outer⟩
  | _, _ => none

/-- Reads a character outside strings and numbers. -/
def stepMark (r : Reader) (c : Char) : Option Reader :=
  if isSpace c then some r
  else
    match r.mode with
    | .value => startValue r.frames c
    | .firstItem =>
        if c = ']' then some ⟨.behind (.array []), r.frames⟩
        else startValue (.array [] :: r.frames) c
    | .firstKey =>
        if c = '\x7d' then some ⟨.behind (.object []), r.frames⟩ else startKey [] r.frames c
    | .key before => startKey before r.frames c
    | .colon before key =>
        if c = ':' then some ⟨.value, .object before key :: r.frames⟩ else none
    | .behind value => goOn value r.frames c
    | .number _ | .string _ _ _ => none

/-- What a code unit adds to a string. Half of a pair does not stand alone. -/
def closeUnit (high : Option Nat) (n : Nat) (before : List Char) : Option (List Char × Pending) :=
  match high with
  | some high => if isLow n then some (Char.ofNat (pairValue high n) :: before, .nothing) else none
  | none =>
      if isHigh n then some (before, .second n false)
      else if isLow n then none
      else some (Char.ofNat n :: before, .nothing)

/-- Reads a character inside a string. -/
def stepString (before : List Char) (pending : Pending) (c : Char) : Option (List Char × Pending) :=
  match pending with
  | .nothing =>
      if c = '\\' then some (before, .escape)
      else if c.toNat < 0x20 then none
      else some (c :: before, .nothing)
  | .escape =>
      if c = 'u' then some (before, .unit none 3 0)
      else (escaped? c).map fun d => (d :: before, .nothing)
  | .unit high left sofar =>
      (hexValue? c).bind fun i =>
        match left with
        | 0 => closeUnit high (sofar * 16 + i) before
        | left + 1 => some (before, .unit high left (sofar * 16 + i))
  | .second high false => if c = '\\' then some (before, .second high true) else none
  | .second high true => if c = 'u' then some (before, .unit (some high) 3 0) else none

/-- Reads the quote that ends a string. -/
def closeString (role : Role) (before : List Char) : Mode :=
  match role with
  | .value => .behind (.text (String.ofList before.reverse))
  | .key fields => .colon fields (String.ofList before.reverse)

/-- Reads a character. -/
def step (r : Reader) (c : Char) : Option Reader :=
  match r.mode with
  | .string role before pending =>
      if c = '"' ∧ pending = .nothing then some ⟨closeString role before, r.frames⟩
      else (stepString before pending c).map fun next => ⟨.string role next.1 next.2, r.frames⟩
  | .number n =>
      if c.isDigit then
        if n = 0 then none else some ⟨.number (10 * n + (c.toNat - '0'.toNat)), r.frames⟩
      else stepMark ⟨.behind (.number n), r.frames⟩ c
  | _ => r.stepMark c

/-- The value that has been read when the text ends. -/
def finish? (r : Reader) : Option Json :=
  match r.mode, r.frames with
  | .behind value, [] => some value
  | .number n, [] => some (.number n)
  | _, _ => none

/-- Reads the rest of a text. -/
def read (r : Reader) : List Char → Option Json
  | [] => r.finish?
  | c :: rest => (r.step c).bind fun r' => r'.read rest

end Reader

/-- The value that a text writes. -/
def read? (s : List Char) : Option Json := (⟨.value, []⟩ : Reader).read s

namespace Reader
variable {frames : List Frame} {s w rest : List Char}

/-! ## Steps -/

theorem step_string {role : Role} {before : List Char} {pending : Pending} (c : Char) :
    (⟨.string role before pending, frames⟩ : Reader).step c =
      if c = '"' ∧ pending = .nothing then some ⟨closeString role before, frames⟩
      else (stepString before pending c).map fun next => ⟨.string role next.1 next.2, frames⟩ := rfl

theorem step_number {n : Nat} (c : Char) : (⟨.number n, frames⟩ : Reader).step c =
    if c.isDigit then
      if n = 0 then none else some ⟨.number (10 * n + (c.toNat - '0'.toNat)), frames⟩
    else (⟨.behind (.number n), frames⟩ : Reader).step c := rfl

/-- Whether spaces may come next. -/
def Mode.isMark : Mode → Bool
  | .number _ | .string _ _ _ => false
  | _ => true

theorem step_of_isMark {mode : Mode} (h : Mode.isMark mode = true) (c : Char) :
    (⟨mode, frames⟩ : Reader).step c = (⟨mode, frames⟩ : Reader).stepMark c := by
  cases mode <;> first | rfl | cases h

/-- A mark that goes on with the text. -/
theorem read_open {r r' : Reader} {c : Char} (h : r.step c = some r') :
    r.read (c :: rest) = r'.read rest := by
  rw [read, h]
  rfl

/-! ## Spaces and numbers -/

/-- Spaces around a mark are passed over. -/
theorem read_spaces {mode : Mode} (h : Mode.isMark mode = true) (hw : Spaces w) :
    (⟨mode, frames⟩ : Reader).read (w ++ rest) = (⟨mode, frames⟩ : Reader).read rest := by
  induction w with
  | nil => rfl
  | cons c w ih =>
      have hc : isSpace c = true := hw c List.mem_cons_self
      rw [List.cons_append, read, step_of_isMark h, stepMark, if_pos hc]
      exact ih fun d hd => hw d (List.mem_cons_of_mem c hd)

/-- A number does not go on in the rest of a text. -/
def EndsNumber (rest : List Char) : Prop := ∀ c, rest.head? = some c → c.isDigit = false

theorem endsNumber_cons {c : Char} (h : c.isDigit = false) : EndsNumber (c :: rest) := by
  intro d hd
  rwa [← Option.some.inj hd]

theorem endsNumber_spaces (hw : Spaces w) (h : EndsNumber rest) : EndsNumber (w ++ rest) := by
  cases w with
  | nil => exact h
  | cons c w =>
      have hc : isSpace c = true := hw c List.mem_cons_self
      have hdigit : ∀ c, isSpace c = true → c.isDigit = false := by
        intro c hc
        simp only [isSpace, Bool.or_eq_true, beq_iff_eq] at hc
        rcases hc with ((rfl | rfl) | rfl) | rfl <;> decide
      exact endsNumber_cons (hdigit c hc)

/-- Behind its last digit a number is read like any value. -/
theorem read_behind_number (h : EndsNumber rest) (n : Nat) :
    (⟨.number n, frames⟩ : Reader).read rest =
      (⟨.behind (.number n), frames⟩ : Reader).read rest := by
  cases rest with
  | nil => cases frames <;> rfl
  | cons c rest =>
      have hc : c.isDigit = false := h c rfl
      rw [read, read, step_number, if_neg (by simp [hc])]

theorem read_digits {n : Nat} (hn : 0 < n) (hs : ∀ d ∈ s, d.isDigit = true) :
    (⟨.number n, frames⟩ : Reader).read (s ++ rest) =
      (⟨.number (Nat.ofDigitChars 10 s n), frames⟩ : Reader).read rest := by
  induction s generalizing n with
  | nil => rfl
  | cons c s ih =>
      have hc : c.isDigit = true := hs c List.mem_cons_self
      have hstep : (⟨.number n, frames⟩ : Reader).step c =
          some ⟨.number (10 * n + (c.toNat - '0'.toNat)), frames⟩ := by
        rw [step_number, if_pos hc, if_neg (by omega)]
      rw [List.cons_append, read, hstep, Option.bind_some, Nat.ofDigitChars_cons]
      exact ih (by omega) fun d hd => hs d (List.mem_cons_of_mem c hd)

theorem startValue_digit {c : Char} (hc : c.isDigit = true) :
    startValue frames c = some ⟨.number (c.toNat - '0'.toNat), frames⟩ := by
  unfold startValue
  split
  · exact absurd hc (by decide)
  · exact absurd hc (by decide)
  · exact absurd hc (by decide)
  · rw [if_pos hc]

theorem isSpace_of_isDigit {c : Char} (hc : c.isDigit = true) : isSpace c = false := by
  refine Bool.eq_false_iff.mpr fun hspace => ?_
  simp only [isSpace, Bool.or_eq_true, beq_iff_eq] at hspace
  rcases hspace with ((rfl | rfl) | rfl) | rfl <;> exact absurd hc (by decide)

theorem pos_of_isDigit {c : Char} (hc : c.isDigit = true) (hzero : c ≠ '0') :
    0 < c.toNat - '0'.toNat := by
  have hle : '0'.toNat ≤ c.toNat := by
    simp only [Char.isDigit, Bool.and_eq_true, decide_eq_true_eq] at hc
    exact hc.1
  have hne : c.toNat ≠ '0'.toNat := fun h => hzero (Char.toNat_inj.mp h)
  omega

theorem read_number {n : Nat} (h : Number s n) (hrest : EndsNumber rest) :
    (⟨.value, frames⟩ : Reader).read (s ++ rest) =
      (⟨.behind (.number n), frames⟩ : Reader).read rest := by
  rw [← read_behind_number hrest]
  cases h with
  | zero => rfl
  | @digits c s hzero hdigits =>
      have hc : c.isDigit = true := hdigits c List.mem_cons_self
      have hstep : (⟨.value, frames⟩ : Reader).step c =
          some ⟨.number (c.toNat - '0'.toNat), frames⟩ := by
        rw [step_of_isMark rfl, stepMark, if_neg (by simp [isSpace_of_isDigit hc])]
        exact startValue_digit hc
      have hvalue : Nat.ofDigitChars 10 (c :: s) 0 =
          Nat.ofDigitChars 10 s (c.toNat - '0'.toNat) := by
        rw [Nat.ofDigitChars_cons, Nat.mul_zero, Nat.zero_add]
      rw [List.cons_append, read, hstep, Option.bind_some, hvalue,
        read_digits (pos_of_isDigit hc hzero) fun d hd => hdigits d (List.mem_cons_of_mem c hd)]

/-! ## Strings -/

section
variable {role : Role} {before : List Char}

/-- A character inside a string. -/
theorem read_inside {pending pending' : Pending} {before' : List Char} {c : Char}
    (hopen : pending = .nothing → c ≠ '"')
    (h : stepString before pending c = some (before', pending')) :
    (⟨.string role before pending, frames⟩ : Reader).read (c :: rest) =
      (⟨.string role before' pending', frames⟩ : Reader).read rest := by
  have hgoes : ¬ (c = '"' ∧ pending = .nothing) := fun hend => hopen hend.2 hend.1
  rw [read, step_string, if_neg hgoes, h]
  rfl

/-- Four digits are read as a code unit. -/
theorem read_unit {high : Option Nat} {n : Nat} (h : CodeUnit s n) {before' : List Char}
    {pending : Pending} (hclose : closeUnit high n before = some (before', pending)) :
    (⟨.string role before (.unit high 3 0), frames⟩ : Reader).read (s ++ rest) =
      (⟨.string role before' pending, frames⟩ : Reader).read rest := by
  obtain @⟨a, b, c, d, i, j, k, l, ha, hb, hc, hd⟩ := h
  have hfirst : stepString before (.unit high 3 0) a = some (before, .unit high 2 i) := by
    rw [stepString, ha, Option.bind_some, Nat.zero_mul, Nat.zero_add]
  have hsecond : stepString before (.unit high 2 i) b =
      some (before, .unit high 1 (i * 16 + j)) := by
    rw [stepString, hb, Option.bind_some]
  have hthird : stepString before (.unit high 1 (i * 16 + j)) c =
      some (before, .unit high 0 ((i * 16 + j) * 16 + k)) := by
    rw [stepString, hc, Option.bind_some]
  have hfourth : stepString before (.unit high 0 ((i * 16 + j) * 16 + k)) d =
      some (before', pending) := by
    rw [stepString, hd, Option.bind_some]
    exact hclose
  show (⟨.string role before (.unit high 3 0), frames⟩ : Reader).read (a :: b :: c :: d :: rest) = _
  rw [read_inside (by simp) hfirst, read_inside (by simp) hsecond, read_inside (by simp) hthird,
    read_inside (by simp) hfourth]

/-- No character is half of a pair. -/
theorem not_half_toNat (c : Char) : isHigh c.toNat = false ∧ isLow c.toNat = false := by
  have hvalid : c.toNat < 0xD800 ∨ 0xDFFF < c.toNat ∧ c.toNat < 0x110000 := c.valid
  simp only [isHigh, isLow, Bool.and_eq_false_iff, decide_eq_false_iff_not]
  omega

theorem read_character {c : Char} (h : Character s c) :
    (⟨.string role before .nothing, frames⟩ : Reader).read (s ++ rest) =
      (⟨.string role (c :: before) .nothing, frames⟩ : Reader).read rest := by
  have hescape : stepString before .nothing '\\' = some (before, .escape) := rfl
  have hunit : stepString before .escape 'u' = some (before, .unit none 3 0) := rfl
  cases h with
  | plain hquote hbackslash hcontrol =>
      refine read_inside (fun _ => hquote) ?_
      rw [stepString, if_neg hbackslash, if_neg (by omega)]
  | @short mark c h =>
      have hmark : mark ≠ 'u' := fun hu => by
        rw [hu] at h
        cases h
      refine (read_inside (by simp) hescape).trans (read_inside (by simp) ?_)
      rw [stepString, if_neg hmark, h]
      rfl
  | @code s c h =>
      refine (read_inside (by simp) hescape).trans ((read_inside (by simp) hunit).trans ?_)
      refine read_unit h ?_
      rw [closeUnit, (not_half_toNat c).1, (not_half_toNat c).2, Char.ofNat_toNat]
      rfl
  | @pair s t c high low hs ht hhigh hlow hc =>
      refine (read_inside (by simp) hescape).trans ((read_inside (by simp) hunit).trans ?_)
      have hfirst : closeUnit none high before = some (before, .second high false) := by
        rw [closeUnit, if_pos hhigh]
      have hsecond : closeUnit (some high) low before = some (c :: before, .nothing) := by
        rw [closeUnit, if_pos hlow, ← hc, Char.ofNat_toNat]
      refine (congrArg _ (List.append_assoc s _ rest)).trans ?_
      rw [read_unit hs hfirst]
      refine (read_inside (by simp) rfl).trans ((read_inside (by simp) rfl).trans ?_)
      exact read_unit ht hsecond

theorem read_characters {cs : List Char} (h : Characters s cs) :
    (⟨.string role before .nothing, frames⟩ : Reader).read (s ++ rest) =
      (⟨.string role (cs.reverse ++ before) .nothing, frames⟩ : Reader).read rest := by
  induction h generalizing before with
  | nil => rfl
  | cons hc _ ih =>
      rw [List.append_assoc, read_character hc, ih, List.reverse_cons, List.append_assoc]
      rfl

/-- A string is read up to its closing quote. -/
theorem read_string {cs : List Char} (h : Characters s cs) :
    (⟨.string role [] .nothing, frames⟩ : Reader).read (s ++ '"' :: rest) =
      (⟨closeString role cs.reverse, frames⟩ : Reader).read rest := by
  rw [read_characters h, List.append_nil]
  rfl

end

/-! ## Values -/

/-- How a value starts: with no space and not with the mark that ends an array. -/
theorem exists_cons_of_value {value : Json} (h : Value s value) :
    ∃ c t, s = c :: t ∧ isSpace c = false ∧ c ≠ ']' := by
  cases h with
  | text h => exact ⟨_, _, rfl, rfl, by decide⟩
  | number h =>
      cases h with
      | zero => exact ⟨_, _, rfl, rfl, by decide⟩
      | @digits c s hzero hdigits =>
          have hc : c.isDigit = true := hdigits c List.mem_cons_self
          refine ⟨c, s, rfl, isSpace_of_isDigit hc, ?_⟩
          rintro rfl
          exact absurd hc (by decide)
  | emptyArray hw => exact ⟨_, _, rfl, rfl, by decide⟩
  | array h => exact ⟨_, _, rfl, rfl, by decide⟩
  | emptyObject hw => exact ⟨_, _, rfl, rfl, by decide⟩
  | object h => exact ⟨_, _, rfl, rfl, by decide⟩

/-- Behind an opening bracket the first item is read like any other. -/
theorem read_firstItem {items : List Json} (h : Items s items) :
    (⟨.firstItem, frames⟩ : Reader).read (s ++ rest) =
      (⟨.value, .array [] :: frames⟩ : Reader).read (s ++ rest) := by
  have hpadded : ∀ {s rest : List Char} {item : Json}, Padded s item →
      (⟨.firstItem, frames⟩ : Reader).read (s ++ rest) =
        (⟨.value, .array [] :: frames⟩ : Reader).read (s ++ rest) := by
    rintro s rest item ⟨hw, hvalue, -⟩
    obtain ⟨c, t, rfl, hspace, hclose⟩ := exists_cons_of_value hvalue
    rw [List.append_assoc, List.append_assoc, read_spaces rfl hw, read_spaces rfl hw,
      List.cons_append, read, read, step_of_isMark rfl, step_of_isMark rfl, stepMark, stepMark,
      hspace]
    dsimp only
    rw [if_neg hclose]
    rfl
  cases h with
  | one h => exact hpadded h
  | more h hrest =>
      rw [List.append_assoc]
      exact hpadded h

/-- Behind an opening brace the first key is read like any other. -/
theorem read_firstKey {fields : List (String × Json)} (h : Fields s fields) :
    (⟨.firstKey, frames⟩ : Reader).read (s ++ rest) =
      (⟨.key [], frames⟩ : Reader).read (s ++ rest) := by
  have hfield : ∀ {s rest : List Char} {field : String × Json}, Field s field →
      (⟨.firstKey, frames⟩ : Reader).read (s ++ rest) =
        (⟨.key [], frames⟩ : Reader).read (s ++ rest) := by
    rintro s rest field ⟨hw, hkey, hw', hvalue⟩
    rw [List.append_assoc, read_spaces rfl hw, read_spaces rfl hw]
    rfl
  cases h with
  | one h => exact hfield h
  | more h hrest =>
      rw [List.append_assoc]
      exact hfield h

mutual

/-- A text that writes a value is read as this value, whatever it stands in. -/
theorem read_value {s : List Char} {value : Json} : Value s value →
    ∀ (frames : List Frame) (rest : List Char), EndsNumber rest →
      (⟨.value, frames⟩ : Reader).read (s ++ rest) = (⟨.behind value, frames⟩ : Reader).read rest
  | .text h, frames, rest, _ => by
      rw [List.cons_append, List.append_assoc, List.singleton_append, read_open rfl, read_string h,
        closeString, List.reverse_reverse]
  | .number h, frames, rest, hrest => read_number h hrest
  | .emptyArray hw, frames, rest, _ => by
      rw [List.cons_append, List.append_assoc, read_open rfl, read_spaces rfl hw]
      rfl
  | .array h, frames, rest, _ => by
      rw [List.cons_append, List.append_assoc, read_open rfl, read_firstItem h]
      exact read_items h [] frames rest
  | .emptyObject hw, frames, rest, _ => by
      rw [List.cons_append, List.append_assoc, read_open rfl, read_spaces rfl hw]
      rfl
  | .object h, frames, rest, _ => by
      rw [List.cons_append, List.append_assoc, read_open rfl, read_firstKey h]
      exact read_fields h [] frames rest

/-- Spaces around the value change nothing. -/
theorem read_padded {s : List Char} {value : Json} : Padded s value →
    ∀ (frames : List Frame) (rest : List Char), EndsNumber rest →
      (⟨.value, frames⟩ : Reader).read (s ++ rest) = (⟨.behind value, frames⟩ : Reader).read rest
  | .mk hw h hw', frames, rest, hrest => by
      rw [List.append_assoc, List.append_assoc, read_spaces rfl hw,
        read_value h frames _ (endsNumber_spaces hw' hrest), read_spaces rfl hw']

/-- The items of an array are read up to its closing bracket. -/
theorem read_items {s : List Char} {items : List Json} : Items s items →
    ∀ (before : List Json) (frames : List Frame) (rest : List Char),
      (⟨.value, .array before :: frames⟩ : Reader).read (s ++ ']' :: rest) =
        (⟨.behind (.array (before.reverse ++ items)), frames⟩ : Reader).read rest
  | .one h, before, frames, rest => by
      rw [read_padded h _ _ (endsNumber_cons (by decide)), ← List.reverse_cons]
      rfl
  | @Items.more _ _ item _ h hrest, before, frames, rest => by
      rw [List.append_assoc, List.cons_append, read_padded h _ _ (endsNumber_cons (by decide))]
      refine (read_items hrest (item :: before) frames rest).trans ?_
      rw [List.reverse_cons, List.append_assoc]
      rfl

/-- A field is read as the key and the value. -/
theorem read_field {s : List Char} {field : String × Json} : Field s field →
    ∀ (before : List (String × Json)) (frames : List Frame) (rest : List Char), EndsNumber rest →
      (⟨.key before, frames⟩ : Reader).read (s ++ rest) =
        (⟨.behind field.2, .object before field.1 :: frames⟩ : Reader).read rest
  | .mk hw hkey hw' h, before, frames, rest, hrest => by
      rw [List.append_assoc, read_spaces rfl hw, List.cons_append, read_open rfl,
        List.append_assoc, List.cons_append, read_string hkey, closeString, List.reverse_reverse,
        List.append_assoc, read_spaces rfl hw', List.cons_append, read_open rfl]
      exact read_padded h _ _ hrest

/-- The fields of an object are read up to its closing brace. -/
theorem read_fields {s : List Char} {fields : List (String × Json)} : Fields s fields →
    ∀ (before : List (String × Json)) (frames : List Frame) (rest : List Char),
      (⟨.key before, frames⟩ : Reader).read (s ++ '\x7d' :: rest) =
        (⟨.behind (.object (before.reverse ++ fields)), frames⟩ : Reader).read rest
  | .one h, before, frames, rest => by
      rw [read_field h _ _ _ (endsNumber_cons (by decide)), ← List.reverse_cons]
      rfl
  | @Fields.more _ _ field _ h hrest, before, frames, rest => by
      rw [List.append_assoc, List.cons_append, read_field h _ _ _ (endsNumber_cons (by decide))]
      refine (read_fields hrest (field :: before) frames rest).trans ?_
      rw [List.reverse_cons, List.append_assoc]
      rfl

end

end Reader

/-! ## The value of a text -/

/-- **The reader accepts every text that the grammar allows**, with the value that the text writes. -/
theorem read?_of_padded {s : List Char} {value : Json} (h : Padded s value) :
    read? s = some value := by
  have hread := Reader.read_padded h [] [] nofun
  rwa [List.append_nil] at hread

/-- No text writes two values. -/
theorem eq_of_padded {s : List Char} {value value' : Json} (h : Padded s value)
    (h' : Padded s value') : value = value' :=
  Option.some.inj ((read?_of_padded h).symm.trans (read?_of_padded h'))

end ShellIndex.Json
