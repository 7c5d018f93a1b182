import ScriptEngine.Bytecode.Basic
import ScriptEngine.Bytecode.Instruction
import ScriptEngine.Bytecode.Listing
import ScriptEngine.Bytecode.Merge
import ScriptEngine.Bytecode.Opcode
import ScriptEngine.Bytecode.Routine
import ScriptEngine.Compile.Code
import ScriptEngine.Compile.Error
import ScriptEngine.Compile.Import
import ScriptEngine.Compile.Lower
import ScriptEngine.Compile.Program
import ScriptEngine.Compile.State
import ScriptEngine.Decimal.Binary
import ScriptEngine.Decimal.Notation
import ScriptEngine.Decimal.Reader
import ScriptEngine.Files.Path
import ScriptEngine.Files.Tree
import ScriptEngine.Interchange.Shape
import ScriptEngine.Interchange.Tree
import ScriptEngine.Machine.Globals
import ScriptEngine.Machine.Host
import ScriptEngine.Machine.Operation
import ScriptEngine.Machine.Run
import ScriptEngine.Machine.State
import ScriptEngine.Machine.Step
import ScriptEngine.Machine.Trap
import ScriptEngine.Modules.Registry
import ScriptEngine.Operator
import ScriptEngine.Pos
import ScriptEngine.Program.Basic
import ScriptEngine.Program.Parser
import ScriptEngine.Program.SyntaxError
import ScriptEngine.Proofs.Bindings.Program
import ScriptEngine.Proofs.Bindings.Reads
import ScriptEngine.Proofs.Bindings.Shown
import ScriptEngine.Proofs.Bindings.Sites
import ScriptEngine.Proofs.Bounds.Checked
import ScriptEngine.Proofs.Bounds.Follows
import ScriptEngine.Proofs.Bounds.Run
import ScriptEngine.Proofs.Bounds.Step
import ScriptEngine.Proofs.Budget.Run
import ScriptEngine.Proofs.Budget.Step
import ScriptEngine.Proofs.Elements.Assignment
import ScriptEngine.Proofs.Elements.Paths
import ScriptEngine.Proofs.Elements.Program
import ScriptEngine.Proofs.Elements.Replays
import ScriptEngine.Proofs.Encoding.Decode
import ScriptEngine.Proofs.Encoding.Place
import ScriptEngine.Proofs.Files.Path
import ScriptEngine.Proofs.Files.Places
import ScriptEngine.Proofs.Globals.Edits
import ScriptEngine.Proofs.Globals.Handles
import ScriptEngine.Proofs.Globals.Slots
import ScriptEngine.Proofs.Grammar.Accepts
import ScriptEngine.Proofs.Grammar.Content
import ScriptEngine.Proofs.Grammar.Printed
import ScriptEngine.Proofs.Grammar.Program
import ScriptEngine.Proofs.Grammar.Spells
import ScriptEngine.Proofs.Imports.Cycles
import ScriptEngine.Proofs.Imports.Files
import ScriptEngine.Proofs.Imports.Follow
import ScriptEngine.Proofs.Imports.Modules
import ScriptEngine.Proofs.Imports.Order
import ScriptEngine.Proofs.Imports.Parts
import ScriptEngine.Proofs.Imports.Program
import ScriptEngine.Proofs.Imports.Spelling
import ScriptEngine.Proofs.Imports.Tour
import ScriptEngine.Proofs.Interchange.RoundTrip
import ScriptEngine.Proofs.Joining.Moved
import ScriptEngine.Proofs.Joining.Parser
import ScriptEngine.Proofs.Joining.Program
import ScriptEngine.Proofs.Joining.Scan
import ScriptEngine.Proofs.Jumps
import ScriptEngine.Proofs.Layout.Basic
import ScriptEngine.Proofs.Layout.Emitted
import ScriptEngine.Proofs.Layout.Expressions
import ScriptEngine.Proofs.Layout.Flow
import ScriptEngine.Proofs.Layout.Function
import ScriptEngine.Proofs.Layout.Module
import ScriptEngine.Proofs.Layout.Names
import ScriptEngine.Proofs.Layout.Occurrence
import ScriptEngine.Proofs.Layout.Outline
import ScriptEngine.Proofs.Layout.Overflow
import ScriptEngine.Proofs.Layout.Pieces
import ScriptEngine.Proofs.Layout.Program
import ScriptEngine.Proofs.Layout.Rows
import ScriptEngine.Proofs.Layout.Scope
import ScriptEngine.Proofs.Layout.Statements
import ScriptEngine.Proofs.Layout.Success
import ScriptEngine.Proofs.Layout.Table
import ScriptEngine.Proofs.Lexing.Cover
import ScriptEngine.Proofs.Lexing.Front
import ScriptEngine.Proofs.Lexing.Lines
import ScriptEngine.Proofs.Machine.Execute
import ScriptEngine.Proofs.Machine.Guise
import ScriptEngine.Proofs.Machine.Loop
import ScriptEngine.Proofs.Machine.Steady
import ScriptEngine.Proofs.Meaning.Access
import ScriptEngine.Proofs.Meaning.Calls
import ScriptEngine.Proofs.Meaning.Expressions
import ScriptEngine.Proofs.Meaning.Follow
import ScriptEngine.Proofs.Meaning.Literals
import ScriptEngine.Proofs.Meaning.Powers
import ScriptEngine.Proofs.Meaning.Program
import ScriptEngine.Proofs.Meaning.State
import ScriptEngine.Proofs.Meaning.Statements
import ScriptEngine.Proofs.Meaning.Steps
import ScriptEngine.Proofs.Meaning.Stores
import ScriptEngine.Proofs.Meaning.Tree
import ScriptEngine.Proofs.Meaning.Variables
import ScriptEngine.Proofs.Merge.Artifact
import ScriptEngine.Proofs.Merge.Layout
import ScriptEngine.Proofs.Merge.Pool
import ScriptEngine.Proofs.Merge.Quotient
import ScriptEngine.Proofs.Merge.Redirect
import ScriptEngine.Proofs.Merge.Survivors
import ScriptEngine.Proofs.Merge.Sweep
import ScriptEngine.Proofs.Parsing.Calls
import ScriptEngine.Proofs.Parsing.Ends
import ScriptEngine.Proofs.Parsing.Steps
import ScriptEngine.Proofs.Pool.Held
import ScriptEngine.Proofs.Pool.Program
import ScriptEngine.Proofs.Positions.Closed
import ScriptEngine.Proofs.Positions.Files
import ScriptEngine.Proofs.Positions.Map
import ScriptEngine.Proofs.Positions.Nodes
import ScriptEngine.Proofs.Positions.Program
import ScriptEngine.Proofs.Positions.Runs
import ScriptEngine.Proofs.Positions.Step
import ScriptEngine.Proofs.Printing.Bytes
import ScriptEngine.Proofs.Printing.Expressions
import ScriptEngine.Proofs.Printing.Legible
import ScriptEngine.Proofs.Printing.Program
import ScriptEngine.Proofs.Printing.Scan
import ScriptEngine.Proofs.Printing.Spelling
import ScriptEngine.Proofs.Printing.Statements
import ScriptEngine.Proofs.Printing.Takes
import ScriptEngine.Proofs.Printing.Words
import ScriptEngine.Proofs.Program.Every
import ScriptEngine.Proofs.Program.Lexed
import ScriptEngine.Proofs.Program.Parsed
import ScriptEngine.Proofs.Quiet.Arrival
import ScriptEngine.Proofs.Quiet.Expressions
import ScriptEngine.Proofs.Quiet.Program
import ScriptEngine.Proofs.Quiet.Stores
import ScriptEngine.Proofs.Race.Invariant
import ScriptEngine.Proofs.Race.Schedule
import ScriptEngine.Proofs.Race.Soundness
import ScriptEngine.Proofs.Race.System
import ScriptEngine.Proofs.Recursion.Heirs
import ScriptEngine.Proofs.Recursion.Program
import ScriptEngine.Proofs.Renumber.Machine
import ScriptEngine.Proofs.Renumber.Orderly
import ScriptEngine.Proofs.Renumber.Program
import ScriptEngine.Proofs.Renumber.Run
import ScriptEngine.Proofs.Renumber.Value
import ScriptEngine.Proofs.Safety.Program
import ScriptEngine.Proofs.Safety.Runs
import ScriptEngine.Proofs.Safety.State
import ScriptEngine.Proofs.Safety.Step
import ScriptEngine.Proofs.Scoping.Accept
import ScriptEngine.Proofs.Scoping.Blocks
import ScriptEngine.Proofs.Scoping.Program
import ScriptEngine.Proofs.Scoping.Table
import ScriptEngine.Proofs.Scoping.Verdict
import ScriptEngine.Proofs.Symbols.Captures
import ScriptEngine.Proofs.Symbols.Ledger
import ScriptEngine.Proofs.Symbols.Lexical
import ScriptEngine.Proofs.Symbols.Slots
import ScriptEngine.Proofs.Transfer.Code
import ScriptEngine.Proofs.Transfer.Program
import ScriptEngine.Proofs.Transfer.Rename
import ScriptEngine.Proofs.Value.Disguise
import ScriptEngine.Proofs.Value.Functions
import ScriptEngine.Proofs.Value.Recode
import ScriptEngine.Scope.Table
import ScriptEngine.Script.Artifact
import ScriptEngine.Script.Basic
import ScriptEngine.Script.Cancellation
import ScriptEngine.Script.Error
import ScriptEngine.Text.Blank
import ScriptEngine.Text.Digits
import ScriptEngine.Text.Extender
import ScriptEngine.Text.Quoted
import ScriptEngine.Text.Unprintable
import ScriptEngine.Text.Utf8
import ScriptEngine.Token.Basic
import ScriptEngine.Token.Lexeme
import ScriptEngine.Token.LineIndex
import ScriptEngine.Value.Basic
import ScriptEngine.Value.Call
import ScriptEngine.Value.Display
import ScriptEngine.Value.Entries
import ScriptEngine.Value.Equality
import ScriptEngine.Bytecode.Patch
import ScriptEngine.Proofs.Value.Alike
import ScriptEngine.Proofs.Encoding.Listing
import ScriptEngine.Proofs.Encoding.Patch
import ScriptEngine.Proofs.Encoding.Stream
