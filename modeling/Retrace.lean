import Retrace.Constant.Operation
import Retrace.Main
import Retrace.Workload
import Retrace.Proofs.Looking
import Retrace.Proofs.Record
import Retrace.Proofs.Undo
import Retrace.Proofs.Keeping
import Retrace.Proofs.Recall
import Retrace.Proofs.Shape
import Retrace.Proofs.Conform
import Retrace.Proofs.Evaluating
import Retrace.Proofs.Pairing
import Retrace.Proofs.Guard
import Retrace.Proofs.SingleAssignment
import Retrace.Proofs.Calm
import Retrace.Proofs.Phrase
import Retrace.Proofs.Parsing
import Retrace.Proofs.Writing
import Retrace.Proofs.Lexing
import Retrace.Proofs.Reading
import Retrace.Proofs.Agreement
import Retrace.Proofs.Closure
import Retrace.Proofs.Counting
import Retrace.Proofs.Ending
import Retrace.Proofs.Faults
import Retrace.Proofs.Jumping
import Retrace.Proofs.Breaking
import Retrace.Proofs.Numbering
import Retrace.Proofs.Registering
import Retrace.Proofs.Scope
import Retrace.Proofs.Strict
import Retrace.Proofs.Declaring
import Retrace.Proofs.Once
import Retrace.Proofs.Watching
import Retrace.Proofs.Moments
import Retrace.Proofs.Lasting
import Retrace.Proofs.Ageing
import Retrace.Proofs.Scanning
import Retrace.Proofs.Nesting
import Retrace.Proofs.Placing
import Retrace.Proofs.Forgetting
import Retrace.Proofs.Tracing
import Retrace.Proofs.Showing
import Retrace.Proofs.Alternatives
import Retrace.Proofs.Words
import Retrace.Proofs.Combining
import Retrace.Proofs.Failing
import Retrace.Proofs.Peeking
import Retrace.Proofs.Residues
import Retrace.Proofs.Folding
import Retrace.Proofs.Enough
import Retrace.Proofs.Visiting
import Retrace.Proofs.Widening
import Retrace.Proofs.Profiling
import Retrace.Proofs.IdleLines
import Retrace.Proofs.ShortRange
import Retrace.Proofs.Chains
import Retrace.Proofs.Joining
import Retrace.Proofs.OneLine
import Retrace.Proofs.Literals
import Retrace.Proofs.Respacing
import Retrace.Proofs.Drift
