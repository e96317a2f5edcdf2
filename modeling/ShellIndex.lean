import ShellIndex.Main
import ShellIndex.Proofs.Call.ArrayLiteral
import ShellIndex.Proofs.Call.Assignment
import ShellIndex.Proofs.Call.Behind
import ShellIndex.Proofs.Call.Continuation
import ShellIndex.Proofs.Call.Escapes
import ShellIndex.Proofs.Call.Marks
import ShellIndex.Proofs.Call.Ordinary
import ShellIndex.Proofs.Call.Program
import ShellIndex.Proofs.Call.ProgramCalls
import ShellIndex.Proofs.Call.ProgramView
import ShellIndex.Proofs.Call.Redirection
import ShellIndex.Proofs.Call.Resume
import ShellIndex.Proofs.Call.Substitution
import ShellIndex.Proofs.Call.Tracks
import ShellIndex.Proofs.Call.Words
import ShellIndex.Proofs.Catalog.ArrayLiterals
import ShellIndex.Proofs.Catalog.Assignments
import ShellIndex.Proofs.Catalog.Closure
import ShellIndex.Proofs.Catalog.Continuations
import ShellIndex.Proofs.Catalog.Dependencies
import ShellIndex.Proofs.Catalog.NextLine
import ShellIndex.Proofs.Catalog.Programs
import ShellIndex.Proofs.Catalog.Redirections
import ShellIndex.Proofs.Catalog.Substitutions
import ShellIndex.Proofs.Definition.Concatenation
import ShellIndex.Proofs.Definition.Printing
import ShellIndex.Proofs.Definition.Rounds
import ShellIndex.Proofs.Definition.Spans
import ShellIndex.Proofs.Definition.Written
import ShellIndex.Proofs.Source.Announcements
import ShellIndex.Proofs.Source.Comments
import ShellIndex.Proofs.Source.Heredocs
import ShellIndex.Proofs.Source.LineEnd
import ShellIndex.Proofs.Source.Places
import ShellIndex.Proofs.Source.PlainLines
import ShellIndex.Proofs.Source.Quoting
import ShellIndex.Proofs.Source.Resume
import ShellIndex.Proofs.Source.Shows
import ShellIndex.Proofs.Source.Substitution
import ShellIndex.Proofs.Text.Balance
import ShellIndex.Proofs.Text.Characters
import ShellIndex.Proofs.Text.FirstLine
import ShellIndex.Proofs.Text.LastLine
import ShellIndex.Proofs.Catalog.Concatenation
import ShellIndex.Proofs.Path.Components
import ShellIndex.Proofs.Path.Remainder
import ShellIndex.Proofs.FileTree.Resolve
import ShellIndex.Proofs.FileTree.Label
import ShellIndex.Proofs.Command.Ensures
import ShellIndex.Proofs.FileTree.Entries
import ShellIndex.Proofs.Command.Scripts
import ShellIndex.Proofs.Command.SelfExclusion
import ShellIndex.Proofs.Catalog.Pairs
import ShellIndex.Proofs.Definition.Names
import ShellIndex.Proofs.Command.UtilityCatalog
import ShellIndex.Proofs.Command.Duplicates
import ShellIndex.Proofs.FileTree.Write
import ShellIndex.Proofs.Command.OutputOption
import ShellIndex.Proofs.Source.Pairs
import ShellIndex.Proofs.Source.Arithmetic
import ShellIndex.Proofs.Command.Tasks
import ShellIndex.Proofs.Command.Commit
import ShellIndex.Proofs.Source.Columns
import ShellIndex.Proofs.Report.Bars
import ShellIndex.Proofs.Report.Table
import ShellIndex.Proofs.Json.Grammar
import ShellIndex.Proofs.Json.Reader
import ShellIndex.Proofs.Report.Structured
import ShellIndex.Proofs.FileTree.Plain
import ShellIndex.Proofs.Glob.Walk
import ShellIndex.Proofs.Command.Paths
import ShellIndex.Proofs.Command.RealDuplicates
import ShellIndex.Proofs.Source.Insertion
import ShellIndex.Proofs.Definition.HeaderText
import ShellIndex.Proofs.Definition.Expansions
import ShellIndex.Proofs.Definition.Stages
import ShellIndex.Proofs.Definition.Sites
import ShellIndex.Proofs.Definition.Bodies
import ShellIndex.Proofs.Definition.Recognition
import ShellIndex.Proofs.Definition.DocComments
import ShellIndex.Proofs.Definition.ParameterExpansion
import ShellIndex.Proofs.Definition.Transparency
import ShellIndex.Proofs.Definition.Errors
import ShellIndex.Proofs.Source.EscapedLetter
import ShellIndex.Proofs.Call.EscapedName
import ShellIndex.Proofs.Catalog.EscapedNames
import ShellIndex.Proofs.Call.Backquote
import ShellIndex.Proofs.Catalog.Backquotes
import ShellIndex.Proofs.Call.CasePattern
import ShellIndex.Proofs.Call.CaseCommand
import ShellIndex.Proofs.Call.CaseCalls
import ShellIndex.Proofs.Catalog.CasePatterns
import ShellIndex.Proofs.Command.Strictness
import ShellIndex.Proofs.Command.Expansion
import ShellIndex.Proofs.FileTree.LexicalLabel
import ShellIndex.Proofs.Source.Nesting
import ShellIndex.Proofs.Bytes.Lines
