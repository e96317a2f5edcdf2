import ShellIndex.Scope

set_option autoImplicit false

/-! # Command line arguments

A command line consists of flags, the name of a task, and the options and inputs of that
task. Options come in a long form, `--name value` or `--name=value`, and some in a short
form, `-n value`, `-nvalue` or `-n=value`; short flags can be joined. After `--` all
arguments are inputs.

Arguments are read one by one, and the first that is wrong or asks for the usage decides:
an option that is unknown, stands twice, lacks its value, has one it does not take, or has
one that is not of its kind. What concerns several arguments is looked at when all of them
have been read: the flags `quiet` and `verbose` exclude each other on the same side of the
task, and a task needs its directory.
-/

namespace ShellIndex.Command

/-- An option of the command line. -/
inductive Opt where
  /-- Messages of no importance are shown. -/
  | verbose
  /-- Warnings are not shown. -/
  | quiet
  /-- The usage is shown. -/
  | help
  /-- A script that cannot be read ends the run. -/
  | strict
  /-- Where names have to be unique. -/
  | scope
  /-- The format of the report. -/
  | format
  /-- The file that the report is written to. -/
  | output
  /-- The directory of the utility scripts. -/
  | utils
deriving DecidableEq, Repr

namespace Opt

/-- Whether the option has a value. -/
def takesValue : Opt → Bool
  | scope | format | output | utils => true
  | _ => false

/-- The option of a long name. -/
def ofLong? (name : String) : Option Opt :=
  if name = "verbose" then some verbose
  else if name = "quiet" then some quiet
  else if name = "help" then some help
  else if name = "strict" then some strict
  else if name = "scope" then some scope
  else if name = "format" then some format
  else if name = "output" then some output
  else if name = "utils" then some utils
  else none

/-- The option of a short name. -/
def ofShort? : Char → Option Opt
  | 'v' => some verbose
  | 'q' => some quiet
  | 'h' => some help
  | 'f' => some format
  | 'o' => some output
  | 'u' => some utils
  | _ => none

end Opt

/-- The name of a task. -/
inductive TaskName where
  /-- List the definitions of scripts. -/
  | functions
  /-- Map scripts to the utility functions they call. -/
  | deps
  /-- Report names that are defined more than once. -/
  | duplicates
deriving DecidableEq, Repr

namespace TaskName

/-- The task of a name. -/
def parse? (name : String) : Option TaskName :=
  if name = "functions" then some functions
  else if name = "deps" then some deps
  else if name = "duplicates" then some duplicates
  else none

/-- Whether a task has an option. -/
def accepts : TaskName → Opt → Bool
  | _, .verbose | _, .quiet | _, .help | _, .strict => true
  | functions, .scope | duplicates, .scope => true
  | functions, .format | deps, .format => true
  | functions, .output | deps, .output => true
  | deps, .utils => true
  | _, _ => false

end TaskName

/-- Why a command line leads to no task. -/
inductive Refusal where
  /-- The command line is malformed. -/
  | usage
  /-- The usage is asked for. -/
  | help
deriving DecidableEq, Repr

/-- The arguments read so far. -/
structure Reading where
  /-- The flags. -/
  flags : List Opt
  /-- Where names have to be unique, if that is given. -/
  scope : Option Scope
  /-- The name of the format, if that is given. -/
  format : Option String
  /-- The path of the report, if that is given. -/
  output : Option String
  /-- The path of the directory of utility scripts, if that is given. -/
  utils : Option String
  /-- The inputs, last first. -/
  inputs : List String
  /-- The option whose value is the next argument. -/
  awaiting : Option Opt
  /-- Whether all further arguments are inputs. -/
  onlyInputs : Bool
deriving DecidableEq, Repr

namespace Reading

/-- No argument has been read. -/
def start : Reading :=
  { flags := [], scope := none, format := none, output := none, utils := none
    inputs := [], awaiting := none, onlyInputs := false }

/-- Whether an option has been read. -/
def has (r : Reading) (opt : Opt) : Bool :=
  match opt with
  | .scope => r.scope.isSome
  | .format => r.format.isSome
  | .output => r.output.isSome
  | .utils => r.utils.isSome
  | .verbose | .quiet | .help | .strict => r.flags.contains opt

/-- Reads a flag. -/
def addFlag (r : Reading) (opt : Opt) : Except Refusal Reading :=
  if opt = .help then .error .help
  else if r.has opt then .error .usage
  else .ok { r with flags := opt :: r.flags }

/-- Reads a value as a path, which must not be empty. -/
def readPath (value : String) : Except Refusal String :=
  if value.isEmpty then .error .usage else .ok value

/-- Reads a value as a scope. -/
def readScope (value : String) : Except Refusal Scope :=
  match Scope.parse value with
  | .ok scope => .ok scope
  | .error _ => .error .usage

/-- Reads an option with its value. Every text is a format here; whether there is such a
format is for the task to find out. -/
def addValue (r : Reading) (opt : Opt) (value : String) : Except Refusal Reading :=
  let r' := { r with awaiting := none }
  if r.has opt then .error .usage
  else
    match opt with
    | .scope => (readScope value).map fun scope => { r' with scope := some scope }
    | .format => .ok { r' with format := some value }
    | .output => (readPath value).map fun path => { r' with output := some path }
    | .utils => (readPath value).map fun path => { r' with utils := some path }
    | .verbose | .quiet | .help | .strict => .error .usage

/-- Reads the text of an argument after `--`. -/
def readLong (accepts : Opt → Bool) (r : Reading) (text : List Char) : Except Refusal Reading :=
  let name := text.takeWhile (· != '=')
  match Opt.ofLong? (String.ofList name) with
  | none => .error .usage
  | some opt =>
      if !accepts opt then .error .usage
      else
        match text.drop name.length with
        | [] =>
            if opt.takesValue then .ok { r with awaiting := some opt } else r.addFlag opt
        | _ :: value =>
            if opt.takesValue then r.addValue opt (String.ofList value) else .error .usage

/-- Reads the text of an argument after `-`. -/
def readShort (accepts : Opt → Bool) (r : Reading) : List Char → Except Refusal Reading
  | [] => .ok r
  | c :: rest =>
      match Opt.ofShort? c with
      | none => .error .usage
      | some opt =>
          if !accepts opt then .error .usage
          else if opt.takesValue then
            match rest with
            | [] => .ok { r with awaiting := some opt }
            | d :: value =>
                -- The rest of the argument is the value; an equals sign may come before it.
                r.addValue opt (String.ofList (if d = '=' then value else rest))
          else
            match r.addFlag opt with
            | .error refusal => .error refusal
            | .ok r => readShort accepts r rest

/-- Whether an argument can be the value of the option before it. -/
def isValue (arg : String) : Bool := arg.toList.head? != some '-' || arg == "-"

/-- Reads one argument. -/
def read (accepts : Opt → Bool) (r : Reading) (arg : String) : Except Refusal Reading :=
  if r.onlyInputs then .ok { r with inputs := arg :: r.inputs }
  else
    match r.awaiting with
    | some opt => if isValue arg then r.addValue opt arg else .error .usage
    | none =>
        match arg.toList with
        | ['-', '-'] => .ok { r with onlyInputs := true }
        | '-' :: '-' :: text => r.readLong accepts text
        | '-' :: c :: text => r.readShort accepts (c :: text)
        | _ => .ok { r with inputs := arg :: r.inputs }

/-- Whether the flags can stand together. -/
def isConsistent (r : Reading) : Bool := !(r.has .quiet && r.has .verbose)

/-- Reads all arguments of a task. -/
def readAll (accepts : Opt → Bool) (args : List String) : Except Refusal Reading := do
  let r ← args.foldlM (read accepts) start
  if r.awaiting.isSome || !r.isConsistent then throw .usage
  return { r with inputs := r.inputs.reverse }

end Reading

/-- Which scripts are read and what happens to those that cannot be. -/
structure Inputs where
  /-- Files, directories and patterns. -/
  patterns : List String
  /-- Whether a script that cannot be read ends the run. -/
  strict : Bool
deriving DecidableEq, Repr

/-- How and where the report is written. -/
structure Output where
  /-- The name of the format. -/
  format : String
  /-- The file that is written instead of the standard output. -/
  path : Option String
deriving DecidableEq, Repr

/-- What is to be done. -/
inductive Task where
  /-- List the definitions of scripts. -/
  | functions (inputs : Inputs) (scope : Scope) (output : Output)
  /-- Map scripts to the utility functions they call. -/
  | deps (utils : String) (inputs : Inputs) (output : Output)
  /-- Report names that are defined more than once. -/
  | duplicates (inputs : Inputs) (scope : Scope)
deriving DecidableEq, Repr

/-- A command line. -/
structure Invocation where
  /-- Whether warnings are not shown. -/
  quiet : Bool
  /-- What is to be done. -/
  task : Task
deriving DecidableEq, Repr

namespace Task

/-- The task of the given name with the arguments that have been read. -/
def ofReading (name : TaskName) (r : Reading) : Except Refusal Task := do
  let inputs : Inputs := ⟨r.inputs, r.has .strict⟩
  let output : Output := ⟨r.format.getD "markdown", r.output⟩
  let scope := r.scope.getD .perFile
  match name with
  | .functions => return functions inputs scope output
  | .deps =>
      match r.utils with
      | none => throw .usage
      | some utils => return deps utils inputs output
  | .duplicates => return duplicates inputs scope

end Task

namespace Invocation

/-- The options that may stand before the name of the task. -/
def acceptsBefore : Opt → Bool
  | .verbose | .quiet | .help => true
  | _ => false

/-- Whether there is help on what the arguments after `help` name. -/
def hasHelpOn : List String → Bool
  | [] => true
  | [name] => name == "help" || (TaskName.parse? name).isSome
  | _ => false

/-- Reads the arguments before the name of the task, the name and the rest. -/
def parseFrom (before : Reading) : List String → Except Refusal Invocation
  | [] => .error .usage
  | arg :: args =>
      match arg.toList with
      | '-' :: _ :: _ => do
          let before ← before.read acceptsBefore arg
          if before.onlyInputs then throw .usage
          parseFrom before args
      | _ => do
          if arg = "help" then throw (if hasHelpOn args then .help else .usage)
          match TaskName.parse? arg with
          | none => throw .usage
          | some name =>
              let r ← Reading.readAll name.accepts args
              let task ← Task.ofReading name r
              -- The flags before the name are compared last: the task may ask for the usage.
              if !before.isConsistent then throw .usage
              return ⟨before.has .quiet || r.has .quiet, task⟩

/-- Reads a command line. -/
def parse (args : List String) : Except Refusal Invocation := parseFrom Reading.start args

end Invocation

end ShellIndex.Command
