import SyncCircuit.Expr.Eval
import SyncCircuit.Expr.Reader
import SyncCircuit.Journal
import SyncCircuit.Main
import SyncCircuit.Program.Reader
import SyncCircuit.Report.Page
import SyncCircuit.Report.Traces
import SyncCircuit.Simulation
import SyncCircuit.Proofs.Outcome
import SyncCircuit.Proofs.Environment
import SyncCircuit.Proofs.Folding
import SyncCircuit.Proofs.Evaluation
import SyncCircuit.Proofs.Assignment
import SyncCircuit.Proofs.Recording
import SyncCircuit.Proofs.Cycle
import SyncCircuit.Proofs.History
import SyncCircuit.Proofs.Clocked
import SyncCircuit.Proofs.LatchDelay
import SyncCircuit.Proofs.Carried
import SyncCircuit.Proofs.Synchrony
import SyncCircuit.Proofs.Recovery
import SyncCircuit.Proofs.Truncation
import SyncCircuit.Proofs.Repetition
import SyncCircuit.Proofs.Lexicon
import SyncCircuit.Proofs.Lexing
import SyncCircuit.Proofs.Recognition
import SyncCircuit.Proofs.Grammar
import SyncCircuit.Proofs.ExprReading
import SyncCircuit.Proofs.ProgramReading
import SyncCircuit.Proofs.Parsing
import SyncCircuit.Proofs.Printing
import SyncCircuit.Proofs.Calls
import SyncCircuit.Proofs.Progress
import SyncCircuit.Proofs.Nesting
import SyncCircuit.Proofs.Commutation
import SyncCircuit.Proofs.Imitation
import SyncCircuit.Proofs.UpdateOrder
import SyncCircuit.Proofs.DeclarationOrder
import SyncCircuit.Proofs.Listing
import SyncCircuit.Proofs.Faults
import SyncCircuit.Proofs.Accepted
import SyncCircuit.Proofs.Inlining
import SyncCircuit.Proofs.Visibility
import SyncCircuit.Proofs.CallStack
import SyncCircuit.Proofs.Strictness
import SyncCircuit.Proofs.Alternatives
import SyncCircuit.Proofs.Looping
import SyncCircuit.Proofs.Positions
import SyncCircuit.Proofs.SerialAdder
import SyncCircuit.Proofs.Comments
import SyncCircuit.Proofs.Layout
import SyncCircuit.Proofs.Pieces
import SyncCircuit.Proofs.Vocabulary
import SyncCircuit.Proofs.PageReading
import SyncCircuit.Proofs.JsonReading
import SyncCircuit.Proofs.Reports
import SyncCircuit.Proofs.Traversal
import SyncCircuit.Proofs.DefinitionTable
import SyncCircuit.Proofs.Files
import SyncCircuit.Proofs.Stages
import SyncCircuit.Proofs.Paths
import SyncCircuit.Proofs.PagePaths
import SyncCircuit.Proofs.ByteOrder
import SyncCircuit.Proofs.SignalNames
import SyncCircuit.Proofs.BitStrings
