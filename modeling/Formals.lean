import Formals.Binding.Checking
import Formals.Binding.Emission
import Formals.Binding.Error
import Formals.Binding.Interned
import Formals.Binding.Lowering
import Formals.Binding.Names
import Formals.Binding.Notation
import Formals.Binding.Plan
import Formals.Binding.Signature
import Formals.Binding.Window
import Formals.Cache.Hash
import Formals.Cache.Key
import Formals.Cache.Record
import Formals.Cache.Store
import Formals.Code.Codec
import Formals.Code.Cursor
import Formals.Code.Instruction
import Formals.Code.Listing
import Formals.Code.Notation
import Formals.Code.Varint
import Formals.CommandLine.Arguments
import Formals.CommandLine.Command
import Formals.Diagnostic
import Formals.Double
import Formals.Entries
import Formals.Json.Parser
import Formals.Json.Printer
import Formals.Json.Record
import Formals.Json.Value
import Formals.Machine.Blocks
import Formals.Machine.Env
import Formals.Machine.Error
import Formals.Machine.FromJson
import Formals.Machine.Inspect
import Formals.Machine.Notation
import Formals.Machine.Run
import Formals.Machine.Send
import Formals.Machine.Value
import Formals.Main
import Formals.Project.FileTree
import Formals.Project.Files
import Formals.Project.Interleaving
import Formals.Project.Job
import Formals.Project.Location
import Formals.Project.Options
import Formals.Project.Program
import Formals.Project.ProjectFile
import Formals.Proofs.Actions
import Formals.Proofs.Agreement
import Formals.Proofs.Assignment
import Formals.Proofs.BareCalls
import Formals.Proofs.BareRuns
import Formals.Proofs.BindingOrder
import Formals.Proofs.Bindings
import Formals.Proofs.Blocks
import Formals.Proofs.Caching
import Formals.Proofs.CallerData
import Formals.Proofs.Calls
import Formals.Proofs.Checks
import Formals.Proofs.Circularity
import Formals.Proofs.Codec
import Formals.Proofs.Compiling
import Formals.Proofs.Containment
import Formals.Proofs.Damage
import Formals.Proofs.DefaultOrder
import Formals.Proofs.Deferral
import Formals.Proofs.Definedness
import Formals.Proofs.Doubles
import Formals.Proofs.Effects
import Formals.Proofs.Encoding
import Formals.Proofs.Evaluation
import Formals.Proofs.Evaluator
import Formals.Proofs.Failures
import Formals.Proofs.Filling
import Formals.Proofs.Frames
import Formals.Proofs.FullCalls
import Formals.Proofs.Grammar
import Formals.Proofs.Inspecting
import Formals.Proofs.Instructions
import Formals.Proofs.Integers
import Formals.Proofs.Interleaving
import Formals.Proofs.Interning
import Formals.Proofs.KeywordCode
import Formals.Proofs.Keywords
import Formals.Proofs.Law
import Formals.Proofs.Levels
import Formals.Proofs.Listings
import Formals.Proofs.Lowering
import Formals.Proofs.Markers
import Formals.Proofs.NamedBodies
import Formals.Proofs.Normalizing
import Formals.Proofs.Notations
import Formals.Proofs.Order
import Formals.Proofs.Ownership
import Formals.Proofs.Parts
import Formals.Proofs.Plans
import Formals.Proofs.Printing
import Formals.Proofs.Reading
import Formals.Proofs.Records
import Formals.Proofs.Refilling
import Formals.Proofs.RestOrder
import Formals.Proofs.RoundTrip
import Formals.Proofs.Runs
import Formals.Proofs.Scopes
import Formals.Proofs.Shares
import Formals.Proofs.SideBySide
import Formals.Proofs.Sorting
import Formals.Proofs.Spans
import Formals.Proofs.Sparing
import Formals.Proofs.Spelling
import Formals.Proofs.Structured
import Formals.Proofs.TargetLists
import Formals.Proofs.Targets
import Formals.Proofs.Truncation
import Formals.Proofs.Windows
import Formals.Proofs.Writing
import Formals.Span
import Formals.Text.Bytes
import Formals.Text.Decimal
import Formals.Text.Interner
import Formals.Text.Invisible
import Formals.Text.Quoted
import Formals.Tree.Body
import Formals.Tree.Expr
import Formals.Tree.Param
import Formals.Tree.Reading
import Formals.Tree.Shorthand
import Formals.Tree.Target
import Formals.Tree.Writing
import Formals.Words
