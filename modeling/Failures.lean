import Failures.Guard
import Failures.Report.Writer
import Failures.Proofs.Graph
import Failures.Proofs.Shape
import Failures.Proofs.Rebuilding
import Failures.Proofs.Moving
import Failures.Proofs.Asking
import Failures.Proofs.Collecting
import Failures.Proofs.Outcomes
import Failures.Proofs.Runs
import Failures.Proofs.Regrowth
import Failures.Proofs.Descents
import Failures.Proofs.Blocks
import Failures.Proofs.Coverage
import Failures.Proofs.Nesting
import Failures.Proofs.Sifting
import Failures.Proofs.Ways
import Failures.Proofs.Sharing
import Failures.Proofs.FirstChains
import Failures.Proofs.Fusion
import Failures.Proofs.Inheriting
import Failures.Proofs.Tallying
import Failures.Proofs.Calling
import Failures.Proofs.Failing
import Failures.Proofs.Resting
import Failures.Proofs.Replacing
import Failures.Proofs.Refusing
import Failures.Proofs.Repeating
import Failures.Proofs.Printing
import Failures.Proofs.Guarding
import Failures.Proofs.Rewinding
import Failures.Proofs.Breaking
import Failures.Proofs.Listing
import Failures.Proofs.Persisting
import Failures.Proofs.Histories
