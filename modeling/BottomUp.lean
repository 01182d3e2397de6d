import BottomUp.Automaton.Path
import BottomUp.Main
import BottomUp.Parser.Trace
import BottomUp.Parser.Tree
import BottomUp.Proofs.Agreement
import BottomUp.Proofs.AnyTable
import BottomUp.Proofs.Candidates
import BottomUp.Proofs.Canonical
import BottomUp.Proofs.Catalogues
import BottomUp.Proofs.Completeness
import BottomUp.Proofs.Completion
import BottomUp.Proofs.ConditionalParse
import BottomUp.Proofs.Detection
import BottomUp.Proofs.Discovery
import BottomUp.Proofs.Evaluation
import BottomUp.Proofs.Exactness
import BottomUp.Proofs.Expectation
import BottomUp.Proofs.FirstPasses
import BottomUp.Proofs.FollowPasses
import BottomUp.Proofs.Layouts
import BottomUp.Proofs.Leading
import BottomUp.Proofs.LeastClosures
import BottomUp.Proofs.Offers
import BottomUp.Proofs.OperatorParse
import BottomUp.Proofs.Safety
import BottomUp.Proofs.Simulation
import BottomUp.Proofs.Soundness
import BottomUp.Proofs.Storage
import BottomUp.Proofs.SyntaxErrors
import BottomUp.Proofs.Termination
import BottomUp.Proofs.Unreachable
import BottomUp.Proofs.ValidItems
import BottomUp.Proofs.Validation
import BottomUp.Proofs.ViablePrefixes
import BottomUp.Table.Stored
