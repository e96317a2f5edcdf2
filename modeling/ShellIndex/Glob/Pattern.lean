set_option autoImplicit false

/-! # Patterns

A pattern is a text with wildcards: `?` stands for one character, `*` for any text, and
`[…]` or `[!…]` for one character inside or outside a set, which is given by characters and
ranges. `**` stands for directories of any depth; it has to be a whole component of the
pattern. All other characters stand for themselves.

A pattern is read from left to right, and every fault has the position where it shows,
counted in characters.
-/

namespace ShellIndex.Glob

/-- The characters from `low` to `high`. -/
structure CharRange where
  /-- The first character. -/
  low : Char
  /-- The last character. -/
  high : Char
deriving DecidableEq, Repr

/-- A part of a pattern. -/
inductive Token where
  /-- The character itself. -/
  | char (c : Char)
  /-- Any character. -/
  | anyChar
  /-- Any text. -/
  | anyText
  /-- Directories of any depth. -/
  | anyDepth
  /-- A character of some range. -/
  | oneOf (ranges : List CharRange)
  /-- A character of no range. -/
  | noneOf (ranges : List CharRange)
deriving DecidableEq, Repr

/-- What is wrong with a pattern. -/
inductive PatternProblem where
  /-- More than two asterisks stand in a row. -/
  | tooManyAsterisks
  /-- Two asterisks are not a whole component. -/
  | partialAnyDepth
  /-- A set of characters is not closed. -/
  | unclosedSet
deriving DecidableEq, Repr

/-- A problem at a position of a pattern. -/
structure PatternFault where
  /-- The position of the character where the problem shows. -/
  position : Nat
  /-- What is wrong. -/
  problem : PatternProblem
deriving DecidableEq, Repr

/-- The wording of a problem. -/
def PatternProblem.message : PatternProblem → String
  | tooManyAsterisks => "wildcards are either regular `*` or recursive `**`"
  | partialAnyDepth => "recursive wildcards must form a single path component"
  | unclosedSet => "invalid range pattern"

/-- The wording of a fault. -/
def PatternFault.message (fault : PatternFault) : String :=
  "Pattern syntax error near position " ++ toString fault.position ++ ": " ++
    fault.problem.message

/-! ## Reading -/

/-- The ranges between the brackets of a set. -/
def rangesOf : List Char → List CharRange
  | low :: '-' :: high :: rest => ⟨low, high⟩ :: rangesOf rest
  | c :: rest => ⟨c, c⟩ :: rangesOf rest
  | [] => []

/-- The texts before and after the first closing bracket. -/
def splitAtBracket : List Char → Option (List Char × List Char)
  | [] => none
  | c :: rest =>
      if c = ']' then some ([], rest)
      else (splitAtBracket rest).map fun (inner, after) => (c :: inner, after)

/-- The set whose opening bracket the text follows, with the text after the set. The first
character of a set belongs to it even if it is a closing bracket. -/
def readSet? : List Char → Option (Token × List Char)
  | '!' :: c :: rest =>
      (splitAtBracket rest).map fun (inner, after) => (.noneOf (rangesOf (c :: inner)), after)
  | c :: rest =>
      if c = '!' then none
      else (splitAtBracket rest).map fun (inner, after) => (.oneOf (rangesOf (c :: inner)), after)
  | [] => none

theorem length_splitAtBracket_lt {s inner after : List Char}
    (h : splitAtBracket s = some (inner, after)) : after.length < s.length := by
  induction s generalizing inner with
  | nil => simp [splitAtBracket] at h
  | cons c s ih =>
      rw [splitAtBracket] at h
      split at h
      · simp only [Option.some.injEq, Prod.mk.injEq] at h
        obtain ⟨_, rfl⟩ := h
        simp
      · simp only [Option.map_eq_some_iff, Prod.mk.injEq, Prod.exists] at h
        obtain ⟨inner', after', hs, _, rfl⟩ := h
        have := ih hs
        simp only [List.length_cons]
        omega

theorem length_readSet?_lt {s after : List Char} {token : Token}
    (h : readSet? s = some (token, after)) : after.length < s.length := by
  unfold readSet? at h
  split at h
  · simp only [Option.map_eq_some_iff, Prod.mk.injEq, Prod.exists] at h
    obtain ⟨inner, after', hs, _, rfl⟩ := h
    have := length_splitAtBracket_lt hs
    simp only [List.length_cons]
    omega
  · split at h
    · simp at h
    · simp only [Option.map_eq_some_iff, Prod.mk.injEq, Prod.exists] at h
      obtain ⟨inner, after', hs, _, rfl⟩ := h
      have := length_splitAtBracket_lt hs
      simp only [List.length_cons]
      omega
  · simp at h

/-- The tokens of a pattern from the given position on, given whether a component starts
there. -/
def tokensFrom (position : Nat) (atStart : Bool) : List Char → Except PatternFault (List Token)
  | [] => .ok []
  | '?' :: rest => (tokensFrom (position + 1) false rest).map (.anyChar :: ·)
  -- The third asterisk is at fault.
  | '*' :: '*' :: '*' :: _ => .error ⟨position + 2, .tooManyAsterisks⟩
  | '*' :: '*' :: rest =>
      if atStart then
        match rest with
        | [] => .ok [.anyDepth]
        | c :: more =>
            if c = '/' then (tokensFrom (position + 3) true more).map (.anyDepth :: ·)
            else .error ⟨position + 2, .partialAnyDepth⟩
      -- The character before the asterisks is at fault.
      else .error ⟨position - 1, .partialAnyDepth⟩
  | '*' :: rest => (tokensFrom (position + 1) false rest).map (.anyText :: ·)
  | '[' :: rest =>
      match _read : readSet? rest with
      | none => .error ⟨position, .unclosedSet⟩
      | some (token, after) =>
          (tokensFrom (position + 1 + (rest.length - after.length)) false after).map (token :: ·)
  | c :: rest => (tokensFrom (position + 1) (c == '/') rest).map (.char c :: ·)
termination_by s => s.length
decreasing_by
  · simp
  · simp only [List.length_cons]
    omega
  · simp
  · have shorter := length_readSet?_lt _read
    simp only [List.length_cons]
    omega
  · simp

/-- The tokens of a pattern. -/
def tokens (pattern : List Char) : Except PatternFault (List Token) := tokensFrom 0 true pattern

/-! ## Matching -/

/-- Whether a range contains a character. -/
def CharRange.contains (range : CharRange) (c : Char) : Bool :=
  range.low ≤ c && c ≤ range.high

/-- Whether a predicate holds for what is left of a text after some first part. -/
def anyTail (p : List Char → Bool) : List Char → Bool
  | [] => p []
  | c :: rest => p (c :: rest) || anyTail p rest

/-- Whether a token stands for a character; those that stand for texts do not. -/
def Token.accepts (token : Token) (c : Char) : Bool :=
  match token with
  | .char c' => c == c'
  | .anyChar => true
  | .oneOf ranges => ranges.any (·.contains c)
  | .noneOf ranges => !ranges.any (·.contains c)
  | .anyText | .anyDepth => false

/-- Whether tokens stand for a text. -/
def matchTokens : List Token → List Char → Bool
  | [], s => s.isEmpty
  | .anyText :: tokens, s => anyTail (matchTokens tokens) s
  | .anyDepth :: tokens, s => anyTail (matchTokens tokens) s
  | _ :: _, [] => false
  | token :: tokens, c :: s => token.accepts c && matchTokens tokens s

end ShellIndex.Glob
