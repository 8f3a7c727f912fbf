import Workflow.Session.Respond
import Workflow.Proofs.Congruence
import Workflow.Proofs.Lawful
import Workflow.Proofs.Runs
import Workflow.Proofs.Agreement
import Workflow.Proofs.Failure
import Workflow.Proofs.Bisimulation
import Workflow.Proofs.Reading
import Workflow.Proofs.Threading
import Workflow.Proofs.Folding
import Workflow.Proofs.Executors
import Workflow.Proofs.Associativity
import Workflow.Proofs.Parts
import Workflow.Proofs.WellFormed
import Workflow.Proofs.Progress
import Workflow.Proofs.Sameness
import Workflow.Proofs.Members
import Workflow.Proofs.Unlogged
import Workflow.Proofs.Facade
import Workflow.Proofs.Verbs
import Workflow.Proofs.Fusion
import Workflow.Proofs.Inert
import Workflow.Proofs.Tame
import Workflow.Proofs.Calm
import Workflow.Proofs.Building
import Workflow.Proofs.Mapping
import Workflow.Proofs.Extraction
import Workflow.Proofs.Finals
import Workflow.Proofs.Starts
import Workflow.Proofs.Batching
import Workflow.Proofs.Refusal
import Workflow.Proofs.Handing
import Workflow.Proofs.Keeping
import Workflow.Proofs.Latch
import Workflow.Proofs.Accumulation
import Workflow.Proofs.Interchange
