import Homoicon.Action.Making
import Homoicon.Action.Running
import Homoicon.Arithmetic
import Homoicon.Bits
import Homoicon.Calendar
import Homoicon.Cell
import Homoicon.Collector
import Homoicon.CommandLine
import Homoicon.Comparison
import Homoicon.Context
import Homoicon.Conversion
import Homoicon.Decimal.Binary
import Homoicon.Decimal.Layout
import Homoicon.Decimal.Read
import Homoicon.Decimal.Shortest
import Homoicon.Error
import Homoicon.Error.Value
import Homoicon.Evaluation.Arguments
import Homoicon.Evaluation.Engine
import Homoicon.Evaluation.Steps
import Homoicon.Exchange
import Homoicon.Feed
import Homoicon.Feed.Input
import Homoicon.Frame
import Homoicon.Frame.Call
import Homoicon.Heap
import Homoicon.Interpreter
import Homoicon.Json
import Homoicon.Json.Cursor
import Homoicon.Json.Number
import Homoicon.Json.Reader
import Homoicon.Kind
import Homoicon.Library
import Homoicon.Library.Branch
import Homoicon.Library.Evaluate
import Homoicon.Library.Failure
import Homoicon.Library.Function
import Homoicon.Library.Jump
import Homoicon.Library.Loop
import Homoicon.Library.Making
import Homoicon.Library.Math
import Homoicon.Library.Native
import Homoicon.Library.Output
import Homoicon.Library.Parsing
import Homoicon.Library.Reflection
import Homoicon.Library.Series
import Homoicon.Library.Variable
import Homoicon.Loader
import Homoicon.Machine
import Homoicon.Main
import Homoicon.Mold
import Homoicon.Node
import Homoicon.Node.Parser
import Homoicon.Param
import Homoicon.Parse.Matching
import Homoicon.Parse.Rule
import Homoicon.Parse.Subject
import Homoicon.Path.Step
import Homoicon.Path.Walk
import Homoicon.Proofs.Arena
import Homoicon.Proofs.Arena.Reusing
import Homoicon.Proofs.Arguments.Applying
import Homoicon.Proofs.Arguments.Assigning
import Homoicon.Proofs.Arguments.Binding
import Homoicon.Proofs.Arguments.Calling
import Homoicon.Proofs.Arguments.Exemplars
import Homoicon.Proofs.Arguments.Fulfilling
import Homoicon.Proofs.Arguments.Intake
import Homoicon.Proofs.Arguments.Literal
import Homoicon.Proofs.Arguments.Naming
import Homoicon.Proofs.Arguments.Ordering
import Homoicon.Proofs.Arguments.Partial
import Homoicon.Proofs.Arguments.Parts
import Homoicon.Proofs.Arguments.Passes
import Homoicon.Proofs.Arguments.Signature
import Homoicon.Proofs.Arguments.Site
import Homoicon.Proofs.Arguments.Slots
import Homoicon.Proofs.Arguments.Specializing
import Homoicon.Proofs.Arguments.Stacking
import Homoicon.Proofs.Arguments.Starting
import Homoicon.Proofs.Arithmetic.Actions
import Homoicon.Proofs.Arithmetic.Exact
import Homoicon.Proofs.Arrays.Solid
import Homoicon.Proofs.Booting.Defining
import Homoicon.Proofs.Booting.Specs
import Homoicon.Proofs.Booting.Starting
import Homoicon.Proofs.Calendar
import Homoicon.Proofs.Collection.Freeing
import Homoicon.Proofs.Collection.Sweeping
import Homoicon.Proofs.Collection.Writing
import Homoicon.Proofs.Comparing.Ending
import Homoicon.Proofs.Comparing.Keys
import Homoicon.Proofs.Contexts.Distinct
import Homoicon.Proofs.Contexts.Extending
import Homoicon.Proofs.Contexts.Importing
import Homoicon.Proofs.Contexts.Resolving
import Homoicon.Proofs.Contexts.Settling
import Homoicon.Proofs.Copying.Blocks
import Homoicon.Proofs.Copying.Sources
import Homoicon.Proofs.Copying.Walks
import Homoicon.Proofs.Decimals.Integers
import Homoicon.Proofs.Decimals.Quotients
import Homoicon.Proofs.Decimals.Rounding
import Homoicon.Proofs.Editing.Buffers
import Homoicon.Proofs.Editing.Failing
import Homoicon.Proofs.Editing.Searching
import Homoicon.Proofs.Editing.Silence
import Homoicon.Proofs.Editing.Splicing
import Homoicon.Proofs.Exchange.Bytes
import Homoicon.Proofs.Exchange.Documents
import Homoicon.Proofs.Exchange.Growing
import Homoicon.Proofs.Exchange.Import
import Homoicon.Proofs.Exchange.Reading
import Homoicon.Proofs.Exchange.RoundTrip
import Homoicon.Proofs.Exchange.Values
import Homoicon.Proofs.Expressions.Answers
import Homoicon.Proofs.Expressions.Blocks
import Homoicon.Proofs.Expressions.Cutting
import Homoicon.Proofs.Expressions.Formulas
import Homoicon.Proofs.Expressions.Levels
import Homoicon.Proofs.Expressions.Operations
import Homoicon.Proofs.Expressions.Outcomes
import Homoicon.Proofs.Expressions.Stepping
import Homoicon.Proofs.Expressions.Texts
import Homoicon.Proofs.Expressions.Values
import Homoicon.Proofs.Feeding
import Homoicon.Proofs.Keeping.Laws
import Homoicon.Proofs.Keeping.Series
import Homoicon.Proofs.Kinds
import Homoicon.Proofs.Natives
import Homoicon.Proofs.Parsing.Adequacy
import Homoicon.Proofs.Parsing.Advancing
import Homoicon.Proofs.Parsing.Collecting
import Homoicon.Proofs.Parsing.Cursors
import Homoicon.Proofs.Parsing.Elsewhere
import Homoicon.Proofs.Parsing.Extents
import Homoicon.Proofs.Parsing.Fencing
import Homoicon.Proofs.Parsing.Forward
import Homoicon.Proofs.Parsing.Grammar
import Homoicon.Proofs.Parsing.Lengths
import Homoicon.Proofs.Parsing.Separators
import Homoicon.Proofs.Parsing.Spelling
import Homoicon.Proofs.Paths.Agreeing
import Homoicon.Proofs.Paths.Elements
import Homoicon.Proofs.Paths.Picking
import Homoicon.Proofs.Paths.Poking
import Homoicon.Proofs.Paths.Positions
import Homoicon.Proofs.Paths.ReadBack
import Homoicon.Proofs.Protection.Parsing
import Homoicon.Proofs.Protection.Sealing
import Homoicon.Proofs.Protection.Walking
import Homoicon.Proofs.Quoting
import Homoicon.Proofs.Refining
import Homoicon.Proofs.Running
import Homoicon.Proofs.Source.Accounting
import Homoicon.Proofs.Source.Arranging
import Homoicon.Proofs.Source.Bare
import Homoicon.Proofs.Source.Continuing
import Homoicon.Proofs.Source.Exactness
import Homoicon.Proofs.Source.Finding
import Homoicon.Proofs.Source.Lexing
import Homoicon.Proofs.Source.Lines
import Homoicon.Proofs.Source.Literals
import Homoicon.Proofs.Source.Loading
import Homoicon.Proofs.Source.Names
import Homoicon.Proofs.Source.Numerals
import Homoicon.Proofs.Source.RoundTrip
import Homoicon.Proofs.Source.Signs
import Homoicon.Proofs.Source.Trees
import Homoicon.Proofs.Source.Words
import Homoicon.Proofs.Stacks.Calls
import Homoicon.Proofs.Stacks.Data
import Homoicon.Proofs.Stacks.Delivering
import Homoicon.Proofs.Stacks.Evaluation
import Homoicon.Proofs.Stacks.Levels
import Homoicon.Proofs.Stacks.Library
import Homoicon.Proofs.Stacks.Parsing
import Homoicon.Proofs.Stacks.Primitives
import Homoicon.Proofs.Stacks.Sessions
import Homoicon.Proofs.Stacks.Steps
import Homoicon.Proofs.Storing
import Homoicon.Proofs.Symbols.Rings
import Homoicon.Proofs.Writing.Ending
import Homoicon.Proofs.Writing.Watching
import Homoicon.Quoting
import Homoicon.Series
import Homoicon.Series.Editing
import Homoicon.Symbol
import Homoicon.Text.Blank
import Homoicon.Text.Buffer
import Homoicon.Text.CaseTable
import Homoicon.Text.Lowercase
import Homoicon.Text.Utf8
import Homoicon.Token
import Homoicon.Token.Lexer
import Homoicon.Token.Number
import Homoicon.Trap
import Homoicon.Varargs
