import ShellIndex.Proofs.Call.CasePattern

set_option autoImplicit false

/-! # `case` commands

Commands as trees with `case` commands of any depth. The patterns of an arm may have parentheses of
their own, its body may start on a later line, and it may end in any of the three ways.

The names in command position are those of the bodies (`Statement.names`). What is listed in their
place (`Statement.listed`) depends on what stands in front of each body (`ArmHead`): which words
among the patterns are read as commands, and whether a command is expected behind them. If no such
word is and a command is expected, the names are listed (`listed_statement`).
-/

namespace ShellIndex.Program

open Text Source Call

/-! ## Trees -/

/-- Text between double quotes without a substitution. -/
structure QuotedText where
  text : List Char
  plain : ∀ c ∈ text, c ≠ '"' ∧ c ≠ '\\' ∧ c ≠ '`' ∧ c ≠ '\r'
  no_substitution : ¬ ['$', '('] <:+: text

/-- What a `case` command looks at. -/
inductive Subject where
  | word (w : PlainWord)
  /-- `$v` -/
  | reference (v : Variable)
  /-- `"…"` -/
  | quoted (q : QuotedText)

/-- The end of an arm. -/
inductive Ending where
  /-- `;;` -/
  | stop
  /-- `;&` -/
  | fall
  /-- `;;&` -/
  | test
deriving DecidableEq, Repr

/-- What stands in front of the body of an arm. -/
structure ArmHead where
  /-- The number of line ends in front of the patterns. -/
  above : Nat
  /-- Whether a parenthesis stands in front of the patterns. -/
  opened : Bool
  patterns : Alternatives
  /-- The number of line ends between the patterns and the body. -/
  below : Nat

mutual

/-- A command that `case` commands may be part of. -/
inductive Statement where
  | plain (command : Command)
  /-- `{ body; }` -/
  | group (body : Block)
  /-- `( body )` -/
  | subshell (body : Block)
  /-- `if condition; then yes; else no; fi` -/
  | branch (condition yes no : Block)
  /-- `while condition; do body; done` -/
  | loop (condition body : Block)
  /-- `function name { body; }` or `name() { body; }` -/
  | define (keyword : Bool) (name : Name) (body : Block)
  /-- `case subject in arms` -/
  | choose (subject : Subject) (arms : ArmList)

/-- Commands in a row. -/
inductive Block where
  | single (s : Statement)
  | join (s : Statement) (joint : Joint) (rest : Block)

/-- The arms of a `case` command with the `esac` behind them. -/
inductive ArmList where
  /-- `esac`, behind some line ends -/
  | none (above : Nat)
  /-- An arm without a body. -/
  | skip (head : ArmHead) (ending : Ending) (rest : ArmList)
  /-- An arm. Line ends may stand in front of its end. -/
  | more (head : ArmHead) (body : Block) (above : Nat) (ending : Ending) (rest : ArmList)
  /-- A last arm that does not end in semicolons, and `esac` on the next line or behind a
  semicolon. -/
  | last (head : ArmHead) (body : Block) (onNext : Bool)

end

/-! ## Written commands -/

def lineEnds (n : Nat) : List Char := List.replicate n '\n'

def Ending.text : Ending → List Char
  | .stop => ";;".toList
  | .fall => ";&".toList
  | .test => ";;&".toList

def ArmHead.text (head : ArmHead) : List Char :=
  lineEnds head.above ++ ((if head.opened then " (" else " ").toList ++
    (head.patterns.text ++ (")".toList ++ (lineEnds head.below ++ " ".toList))))

def Subject.print (write : List Char → List Char) : Subject → List Char
  | .word w => w.text.toList
  | .reference v => ['$'] ++ v.text.toList
  | .quoted q => ['"'] ++ (write q.text ++ ['"'])

mutual

def Statement.print (write : List Char → List Char) : Statement → List Char
  | .plain command => command.print write
  | .group body => "\x7b ".toList ++ (body.print write ++ "; \x7d".toList)
  | .subshell body => "( ".toList ++ (body.print write ++ " )".toList)
  | .branch condition yes no =>
      "if ".toList ++ (condition.print write ++ ("; then ".toList ++ (yes.print write ++
        ("; else ".toList ++ (no.print write ++ "; fi".toList)))))
  | .loop condition body =>
      "while ".toList ++ (condition.print write ++ ("; do ".toList ++ (body.print write ++
        "; done".toList)))
  | .define keyword name body => headerText keyword name ++ (body.print write ++ "; \x7d".toList)
  | .choose subject arms =>
      "case ".toList ++ ((subject.print write ++ " in".toList) ++ arms.print write)

def Block.print (write : List Char → List Char) : Block → List Char
  | .single s => s.print write
  | .join s joint rest => s.print write ++ (joint.text.toList ++ rest.print write)

def ArmList.print (write : List Char → List Char) : ArmList → List Char
  | .none above => lineEnds above ++ " esac".toList
  | .skip head ending rest => head.text ++ (ending.text ++ rest.print write)
  | .more head body above ending rest =>
      head.text ++ (body.print write ++ (lineEnds above ++ (" ".toList ++ (ending.text ++
        rest.print write))))
  | .last head body onNext =>
      head.text ++ (body.print write ++ ((if onNext then Joint.lineFeed else .semicolon).text.toList
        ++ "esac".toList))

end

/-! ## Command position

The words that end a conditional or a loop are listed with the names. -/

mutual

/-- The names in command position: of a `case` command those of its bodies. -/
def Statement.names : Statement → List String
  | .plain command => command.listed
  | .group body => body.names
  | .subshell body => body.names
  | .branch condition yes no => condition.names ++ (yes.names ++ (no.names ++ ["fi"]))
  | .loop condition body => condition.names ++ (body.names ++ ["done"])
  | .define _ _ body => body.names
  | .choose _ arms => arms.names

def Block.names : Block → List String
  | .single s => s.names
  | .join s _ rest => s.names ++ rest.names

def ArmList.names : ArmList → List String
  | .none _ => []
  | .skip _ _ rest => rest.names
  | .more _ body _ _ rest => body.names ++ rest.names
  | .last _ body _ => body.names

end

/-- Whether a command is expected in front of the body. -/
def ArmHead.expects (head : ArmHead) : Bool := decide (0 < head.below) || !head.patterns.hasParens

/-- The words among the patterns that are read as commands. -/
def ArmHead.listed (head : ArmHead) : List String := head.patterns.listed .before

/-- The names of a body, of which the first one is lost if no command is expected. -/
def namesFrom (expected : Bool) (names : List String) : List String :=
  if expected then names else names.tail

mutual

/-- The words that are read as commands. -/
def Statement.listed : Statement → List String
  | .plain command => command.listed
  | .group body => body.listed
  | .subshell body => body.listed
  | .branch condition yes no => condition.listed ++ (yes.listed ++ (no.listed ++ ["fi"]))
  | .loop condition body => condition.listed ++ (body.listed ++ ["done"])
  | .define _ _ body => body.listed
  | .choose _ arms => arms.listed

def Block.listed : Block → List String
  | .single s => s.listed
  | .join s _ rest => s.listed ++ rest.listed

def ArmList.listed : ArmList → List String
  | .none _ => []
  | .skip head _ rest => head.listed ++ rest.listed
  | .more head body _ _ rest =>
      head.listed ++ (namesFrom head.expects body.listed ++ rest.listed)
  | .last head body _ => head.listed ++ namesFrom head.expects body.listed

end

/-- Whether a command is a call, perhaps behind wrappers. -/
def Statement.isCall : Statement → Bool
  | .plain (.call _ _ _) => true
  | _ => false

def Block.startsWithCall : Block → Bool
  | .single s => s.isCall
  | .join s _ _ => s.isCall

mutual

/-- Every arm, at every depth, has a property of what stands in front of its body and of its body,
if it has one. -/
def Statement.ForArms (P : ArmHead → Option Block → Prop) : Statement → Prop
  | .plain _ => True
  | .group body => body.ForArms P
  | .subshell body => body.ForArms P
  | .branch condition yes no => condition.ForArms P ∧ yes.ForArms P ∧ no.ForArms P
  | .loop condition body => condition.ForArms P ∧ body.ForArms P
  | .define _ _ body => body.ForArms P
  | .choose _ arms => arms.ForArms P

def Block.ForArms (P : ArmHead → Option Block → Prop) : Block → Prop
  | .single s => s.ForArms P
  | .join s _ rest => s.ForArms P ∧ rest.ForArms P

def ArmList.ForArms (P : ArmHead → Option Block → Prop) : ArmList → Prop
  | .none _ => True
  | .skip head _ rest => P head none ∧ rest.ForArms P
  | .more head body _ _ rest => P head (some body) ∧ body.ForArms P ∧ rest.ForArms P
  | .last head body _ => P head (some body) ∧ body.ForArms P

end

/-- The body starts with a call unless a command is expected in front of it. -/
def ArmHead.Regular (head : ArmHead) (body : Option Block) : Prop :=
  head.expects = true ∨ ∀ b ∈ body, b.startsWithCall = true

/-- No word among the patterns is read as a command, and one is expected in front of the body. -/
def ArmHead.Kept (head : ArmHead) (body : Option Block) : Prop :=
  head.listed = [] ∧ (head.expects = true ∨ body = none)

/-- The patterns have no parentheses of their own. -/
def ArmHead.Plain (head : ArmHead) (_ : Option Block) : Prop := head.patterns.hasParens = false

mutual

/-- No `case` command stands in a substitution inside double quotes. -/
def Statement.Allowed : Statement → Prop
  | .plain command => command.Allowed false
  | .group body => body.Allowed
  | .subshell body => body.Allowed
  | .branch condition yes no => condition.Allowed ∧ yes.Allowed ∧ no.Allowed
  | .loop condition body => condition.Allowed ∧ body.Allowed
  | .define _ _ body => body.Allowed
  | .choose _ arms => arms.Allowed

def Block.Allowed : Block → Prop
  | .single s => s.Allowed
  | .join s _ rest => s.Allowed ∧ rest.Allowed

def ArmList.Allowed : ArmList → Prop
  | .none _ => True
  | .skip _ _ rest => rest.Allowed
  | .more _ body _ _ rest => body.Allowed ∧ rest.Allowed
  | .last _ body _ => body.Allowed

end

/-! ## Arms without parentheses of their own -/

section
variable {P Q : ArmHead → Option Block → Prop}

mutual

theorem Statement.ForArms.mono (hPQ : ∀ head body, P head body → Q head body) : (s : Statement) →
    s.ForArms P → s.ForArms Q
  | .plain _, _ => trivial
  | .group body, h => Block.ForArms.mono hPQ body h
  | .subshell body, h => Block.ForArms.mono hPQ body h
  | .branch condition yes no, ⟨hcondition, hyes, hno⟩ =>
      ⟨Block.ForArms.mono hPQ condition hcondition, Block.ForArms.mono hPQ yes hyes,
        Block.ForArms.mono hPQ no hno⟩
  | .loop condition body, ⟨hcondition, hbody⟩ =>
      ⟨Block.ForArms.mono hPQ condition hcondition, Block.ForArms.mono hPQ body hbody⟩
  | .define _ _ body, h => Block.ForArms.mono hPQ body h
  | .choose _ arms, h => ArmList.ForArms.mono hPQ arms h

theorem Block.ForArms.mono (hPQ : ∀ head body, P head body → Q head body) : (b : Block) →
    b.ForArms P → b.ForArms Q
  | .single s, h => Statement.ForArms.mono hPQ s h
  | .join s _ rest, ⟨h, hrest⟩ =>
      ⟨Statement.ForArms.mono hPQ s h, Block.ForArms.mono hPQ rest hrest⟩

theorem ArmList.ForArms.mono (hPQ : ∀ head body, P head body → Q head body) :
    (arms : ArmList) → arms.ForArms P → arms.ForArms Q
  | .none _, _ => trivial
  | .skip head _ rest, ⟨h, hrest⟩ => ⟨hPQ head none h, ArmList.ForArms.mono hPQ rest hrest⟩
  | .more head body _ _ rest, ⟨h, hbody, hrest⟩ =>
      ⟨hPQ head (some body) h, Block.ForArms.mono hPQ body hbody,
        ArmList.ForArms.mono hPQ rest hrest⟩
  | .last head body _, ⟨h, hbody⟩ =>
      ⟨hPQ head (some body) h, Block.ForArms.mono hPQ body hbody⟩

end

end

/-- Behind patterns with parentheses of their own a command is expected only on a later line. -/
theorem ArmHead.expects_iff (head : ArmHead) :
    head.expects = true ↔ 0 < head.below ∨ head.patterns.hasParens = false := by
  simp [expects]

theorem ArmHead.Plain.kept {head : ArmHead} {body : Option Block} (h : head.Plain body) :
    head.Kept body :=
  ⟨(head.patterns.of_not_hasParens h).2, Or.inl (head.expects_iff.mpr (Or.inr h))⟩

theorem ArmHead.Kept.regular {head : ArmHead} {body : Option Block} (h : head.Kept body) :
    head.Regular body := by
  rcases h.2 with hexpects | rfl
  · exact Or.inl hexpects
  · exact Or.inr (by simp)

theorem ArmHead.Kept.expects {head : ArmHead} {body : Block} (h : head.Kept (some body)) :
    head.expects = true :=
  h.2.resolve_right (by simp)

mutual

/-- Where nothing is misread the names are listed. -/
theorem listed_statement : (s : Statement) → s.ForArms ArmHead.Kept → s.listed = s.names
  | .plain _, _ => rfl
  | .group body, h => listed_block body h
  | .subshell body, h => listed_block body h
  | .branch condition yes no, ⟨hcondition, hyes, hno⟩ => by
      rw [Statement.listed, listed_block condition hcondition, listed_block yes hyes,
        listed_block no hno]
      rfl
  | .loop condition body, ⟨hcondition, hbody⟩ => by
      rw [Statement.listed, listed_block condition hcondition, listed_block body hbody]
      rfl
  | .define _ _ body, h => listed_block body h
  | .choose _ arms, h => listed_arms arms h

theorem listed_block : (b : Block) → b.ForArms ArmHead.Kept → b.listed = b.names
  | .single s, h => listed_statement s h
  | .join s _ rest, ⟨h, hrest⟩ => by
      rw [Block.listed, listed_statement s h, listed_block rest hrest]
      rfl

theorem listed_arms : (arms : ArmList) → arms.ForArms ArmHead.Kept → arms.listed = arms.names
  | .none _, _ => rfl
  | .skip head _ rest, ⟨h, hrest⟩ => by
      rw [ArmList.listed, h.1, listed_arms rest hrest]
      rfl
  | .more head body _ _ rest, ⟨h, hbody, hrest⟩ => by
      rw [ArmList.listed, h.1, h.expects, listed_block body hbody, listed_arms rest hrest]
      rfl
  | .last head body _, ⟨h, hbody⟩ => by
      rw [ArmList.listed, h.1, h.expects, listed_block body hbody]
      rfl

end

end ShellIndex.Program
