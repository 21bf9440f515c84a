import ModuleScript.Console.Arguments
import ModuleScript.Console.Commands
import ModuleScript.Console.Switch
import ModuleScript.Eval.Basic
import ModuleScript.Eval.Bindings
import ModuleScript.Eval.Call
import ModuleScript.Eval.Expressions
import ModuleScript.Eval.Files
import ModuleScript.Eval.Levels
import ModuleScript.Eval.Modules
import ModuleScript.Eval.Names
import ModuleScript.Eval.Run
import ModuleScript.Fault
import ModuleScript.Files.Disk
import ModuleScript.Files.Path
import ModuleScript.Main
import ModuleScript.Number.Basic
import ModuleScript.Number.Binary64
import ModuleScript.Number.Shortest
import ModuleScript.Program.Expr
import ModuleScript.Program.Imports
import ModuleScript.Program.Layout
import ModuleScript.Program.Location
import ModuleScript.Program.Operator
import ModuleScript.Program.Outline
import ModuleScript.Program.Reader
import ModuleScript.Program.Scan
import ModuleScript.Program.Token
import ModuleScript.Report.Basic
import ModuleScript.Report.Cause
import ModuleScript.Report.Excerpt
import ModuleScript.Session
import ModuleScript.Store.Bindings
import ModuleScript.Store.Machine
import ModuleScript.Store.Record
import ModuleScript.Store.Visibility
import ModuleScript.Text.Basic
import ModuleScript.Text.Blank
import ModuleScript.Text.Case
import ModuleScript.Text.CaseTable
import ModuleScript.Text.Decimal
import ModuleScript.Text.Digit
import ModuleScript.Text.Escape
import ModuleScript.Text.Lines
import ModuleScript.Text.Printable
import ModuleScript.Text.Quoted
import ModuleScript.Text.Utf8
import ModuleScript.Value.Basic
import ModuleScript.Value.Display
import ModuleScript.Value.Natives
import ModuleScript.Value.Operators
import ModuleScript.Value.Shape
import ModuleScript.Proofs.Watch
import ModuleScript.Proofs.Simulation.Agreement
import ModuleScript.Proofs.Simulation.Values
import ModuleScript.Proofs.Simulation.Operators
import ModuleScript.Proofs.Simulation.Natives
import ModuleScript.Proofs.Lexical
import ModuleScript.Proofs.Simulation.Basic
import ModuleScript.Proofs.Simulation.Run
import ModuleScript.Proofs.Simulation.Sessions
import ModuleScript.Proofs.Scopes.Kept
import ModuleScript.Proofs.Names
import ModuleScript.Proofs.Scopes.Effects
import ModuleScript.Proofs.Scopes.Shadowing
import ModuleScript.Proofs.Privacy.Actions
import ModuleScript.Proofs.Privacy.Access
import ModuleScript.Proofs.Privacy.Effects
import ModuleScript.Proofs.Privacy.Opening
import ModuleScript.Proofs.Privacy.Runs
import ModuleScript.Proofs.Reading.Closure
import ModuleScript.Proofs.Reading.Orderly
import ModuleScript.Proofs.Reading.Placed
import ModuleScript.Proofs.Reading.Lines
import ModuleScript.Proofs.Reading.Separating
import ModuleScript.Proofs.Reading.Feeding
import ModuleScript.Proofs.Privacy.Sessions
import ModuleScript.Proofs.Privacy.Confinement
import ModuleScript.Proofs.Privacy.Noninterference
import ModuleScript.Proofs.Display.Literals
import ModuleScript.Proofs.Display.Reading
import ModuleScript.Proofs.Display.RoundTrip
import ModuleScript.Proofs.Invariant.Basic
import ModuleScript.Proofs.Sequences
import ModuleScript.Proofs.Concatenation
import ModuleScript.Proofs.Sessions
import ModuleScript.Proofs.Invariant.Actions
import ModuleScript.Proofs.Invariant.Values
import ModuleScript.Proofs.Invariant.Expressions
import ModuleScript.Proofs.Invariant.Run
import ModuleScript.Proofs.Invariant.Together
import ModuleScript.Proofs.Invariant.Sessions
import ModuleScript.Proofs.Modules.Table
import ModuleScript.Proofs.Modules.Declaring
import ModuleScript.Proofs.Modules.Runs
import ModuleScript.Proofs.Conduct.Changes
import ModuleScript.Proofs.Conduct.Basic
import ModuleScript.Proofs.Conduct.Runs
import ModuleScript.Proofs.Conduct.Sessions
import ModuleScript.Proofs.Scopes.Untouched
import ModuleScript.Proofs.Scopes.Extent
import ModuleScript.Proofs.Paths
import ModuleScript.Proofs.Loading
import ModuleScript.Proofs.Conduct.Staged
import ModuleScript.Proofs.Modules.Registering
import ModuleScript.Proofs.Modules.Rollback
import ModuleScript.Proofs.Scopes.Homes
import ModuleScript.Proofs.Scopes.Hygiene
import ModuleScript.Proofs.Scopes.Rooms
import ModuleScript.Proofs.Scopes.Members
import ModuleScript.Proofs.Congruence.Habits
import ModuleScript.Proofs.Congruence.Modest
import ModuleScript.Proofs.Congruence.Basic
import ModuleScript.Proofs.Congruence.Consuming
import ModuleScript.Proofs.Console.Endings
import ModuleScript.Proofs.Congruence.Limits
import ModuleScript.Proofs.Imports.Kinds
import ModuleScript.Proofs.Imports.Stack
import ModuleScript.Proofs.Imports.ImportFree
import ModuleScript.Proofs.Imports.Exported
import ModuleScript.Proofs.Imports.Graph
import ModuleScript.Proofs.Imports.Logged
import ModuleScript.Proofs.Imports.Account
import ModuleScript.Proofs.Imports.Runs
import ModuleScript.Proofs.Imports.Once
import ModuleScript.Proofs.Afresh.Gap
import ModuleScript.Proofs.Afresh.Gapped
import ModuleScript.Proofs.Afresh.Actions
import ModuleScript.Proofs.Afresh.Shown
import ModuleScript.Proofs.Afresh.Runs
import ModuleScript.Proofs.Afresh.Unchanged
import ModuleScript.Proofs.Modules.Forgotten
import ModuleScript.Proofs.Imports.Importers
import ModuleScript.Proofs.Imports.Isolated
import ModuleScript.Proofs.Imports.Stopped
import ModuleScript.Proofs.Imports.Retried
import ModuleScript.Proofs.Imports.Catalog
import ModuleScript.Proofs.Imports.Agreed
import ModuleScript.Proofs.NormalForm
import ModuleScript.Proofs.Printing.Printer
import ModuleScript.Proofs.Printing.Written
import ModuleScript.Proofs.Printing.Reading
import ModuleScript.Proofs.Printing.RoundTrip
import ModuleScript.Proofs.Grammar.Tree
import ModuleScript.Proofs.Grammar.Begun
import ModuleScript.Proofs.Grammar.Ends
import ModuleScript.Proofs.Grammar.Sound
import ModuleScript.Proofs.Grammar.Open
import ModuleScript.Proofs.Grammar.Complete
import ModuleScript.Proofs.Grammar.Exact
import ModuleScript.Proofs.Reading.Moved
import ModuleScript.Proofs.Reading.Below
import ModuleScript.Proofs.Reading.Bodies
import ModuleScript.Proofs.Reading.Bottom
import ModuleScript.Proofs.Reading.Forms
import ModuleScript.Proofs.Reading.Onward
import ModuleScript.Proofs.Grammar.WellFormed
import ModuleScript.Proofs.Grammar.Nested
import ModuleScript.Proofs.Grammar.Operands
import ModuleScript.Proofs.Grammar.Joined
import ModuleScript.Proofs.Grammar.Chains
import ModuleScript.Proofs.Pending.Members
import ModuleScript.Proofs.Pending.Rules
import ModuleScript.Proofs.Pending.Runs
import ModuleScript.Proofs.Pending.Surveyed
import ModuleScript.Proofs.Layout.Actions
import ModuleScript.Proofs.Layout.Runs
import ModuleScript.Proofs.Layout.Mapped
import ModuleScript.Proofs.Layout.Sequenced
import ModuleScript.Proofs.Functions.Sound
import ModuleScript.Proofs.Functions.Varied
import ModuleScript.Proofs.Modules.Reordered
import ModuleScript.Proofs.Excerpts.Shown
import ModuleScript.Proofs.Reading.LineEnds
import ModuleScript.Proofs.Lexemes.Patterns
import ModuleScript.Proofs.Lexemes.Covered
import ModuleScript.Proofs.Division
import ModuleScript.Proofs.Comparison
import ModuleScript.Proofs.Numerals
import ModuleScript.Proofs.Lexemes.Escapes
import ModuleScript.Proofs.Congruence.Failing
import ModuleScript.Proofs.Raising.Commands
import ModuleScript.Proofs.Raising.Innermost
