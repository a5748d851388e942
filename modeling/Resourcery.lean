import Resourcery.Proof.Shutdown
import Resourcery.Proof.Cancellation
import Resourcery.Proof.Exclusivity
import Resourcery.Proof.Barrier
import Resourcery.Proof.Index
import Resourcery.Proof.Control
import Resourcery.Proof.Grants
import Resourcery.Proof.Results
import Resourcery.Proof.Outcomes
import Resourcery.Proof.Iteration
import Resourcery.Proof.Reentry
import Resourcery.Proof.Reclamation
import Resourcery.Proof.Residue
import Resourcery.Proof.Completeness
import Resourcery.Proof.Accounting
import Resourcery.Proof.Gate
import Resourcery.Proof.Lookup
import Resourcery.Proof.Refinement
import Resourcery.Proof.Discovery
import Resourcery.Proof.Terminal
import Resourcery.Proof.Waiters
import Resourcery.Proof.Orphans
import Resourcery.Proof.Vacancy
