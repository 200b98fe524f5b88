import StackLang.Command.Basic
import StackLang.Command.Options
import StackLang.Disk
import StackLang.Emitter.Basic
import StackLang.Emitter.Generate
import StackLang.Execution.Session
import StackLang.Execution.Snapshot
import StackLang.Grammar.Expression
import StackLang.Grammar.Reader
import StackLang.Grammar.Statement
import StackLang.Instruction.Basic
import StackLang.Instruction.Census
import StackLang.Instruction.Listing
import StackLang.Label
import StackLang.Machine.Execute
import StackLang.Machine.State
import StackLang.Main
import StackLang.Numeral
import StackLang.Operator
import StackLang.Pipeline.Basic
import StackLang.Pipeline.Reading
import StackLang.Pipeline.Report
import StackLang.Pipeline.Transcript
import StackLang.Program
import StackLang.Table
import StackLang.Text.Blank
import StackLang.Text.Quoted
import StackLang.Text.Utf8
import StackLang.Token.Basic
import StackLang.Token.Cursor
import StackLang.Token.Scanner
import StackLang.Tree
import StackLang.Proofs.Evaluation
import StackLang.Proofs.Layout
import StackLang.Proofs.Generation
import StackLang.Proofs.Effects
import StackLang.Proofs.Instructions
import StackLang.Proofs.Moves
import StackLang.Proofs.Frames
import StackLang.Proofs.Simulation
import StackLang.Proofs.Linking
import StackLang.Proofs.Phrases
import StackLang.Proofs.Reading
import StackLang.Proofs.Rounds
import StackLang.Proofs.Fetching
import StackLang.Proofs.Runs
import StackLang.Proofs.Correctness
import StackLang.Proofs.Recognition
import StackLang.Proofs.Outcomes
import StackLang.Proofs.Spans
import StackLang.Proofs.Confinement
import StackLang.Proofs.Passages
import StackLang.Proofs.Labels
import StackLang.Proofs.Sites
import StackLang.Proofs.Scoping
import StackLang.Proofs.Numerals
import StackLang.Proofs.Listings
import StackLang.Proofs.Transfer
import StackLang.Proofs.Activations
import StackLang.Proofs.Isolation
import StackLang.Proofs.Elements
import StackLang.Proofs.Calls
import StackLang.Proofs.Fragments
import StackLang.Proofs.Targets
import StackLang.Proofs.Patches
import StackLang.Proofs.Occurrences
import StackLang.Proofs.Symbols
import StackLang.Proofs.Limits
import StackLang.Proofs.Traces
import StackLang.Proofs.Spellings
import StackLang.Proofs.Scanning
import StackLang.Proofs.Roundtrips
import StackLang.Proofs.Concatenation
import StackLang.Proofs.Registration
import StackLang.Proofs.Inventory
import StackLang.Proofs.Printing
import StackLang.Proofs.Parametricity
import StackLang.Proofs.Metering
import StackLang.Proofs.Progress
import StackLang.Proofs.Streams
import StackLang.Proofs.Levels
