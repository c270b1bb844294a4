import Tenure.Catalog.Rules
import Tenure.Catalog.Sample
import Tenure.Document.Catalog
import Tenure.Document.Forms
import Tenure.Engine.Lifecycle
import Tenure.Engine.Planned
import Tenure.Proofs.Additions
import Tenure.Proofs.Apart
import Tenure.Proofs.Audit
import Tenure.Proofs.Billing
import Tenure.Proofs.Calendar
import Tenure.Proofs.Cancelling
import Tenure.Proofs.Carrying
import Tenure.Proofs.Cases
import Tenure.Proofs.Chaining
import Tenure.Proofs.Changing
import Tenure.Proofs.Coherence
import Tenure.Proofs.Completion
import Tenure.Proofs.Course
import Tenure.Proofs.Creating
import Tenure.Proofs.Cuts
import Tenure.Proofs.Dates
import Tenure.Proofs.Decoding
import Tenure.Proofs.Draining
import Tenure.Proofs.DryRun
import Tenure.Proofs.Effects
import Tenure.Proofs.Exclusion
import Tenure.Proofs.Failures
import Tenure.Proofs.Filing
import Tenure.Proofs.Finishing
import Tenure.Proofs.Hindsight
import Tenure.Proofs.ImportedTerms
import Tenure.Proofs.Imports
import Tenure.Proofs.KeptPast
import Tenure.Proofs.Leaving
import Tenure.Proofs.Listing
import Tenure.Proofs.Moorings
import Tenure.Proofs.Openings
import Tenure.Proofs.Order
import Tenure.Proofs.Orphans
import Tenure.Proofs.Periods
import Tenure.Proofs.Phases
import Tenure.Proofs.Planning
import Tenure.Proofs.Positions
import Tenure.Proofs.Realising
import Tenure.Proofs.Rebuilding
import Tenure.Proofs.Regrowth
import Tenure.Proofs.Renaming
import Tenure.Proofs.Replanning
import Tenure.Proofs.Rewriting
import Tenure.Proofs.Scratch
import Tenure.Proofs.Shown
import Tenure.Proofs.SingleProposal
import Tenure.Proofs.SoleBase
import Tenure.Proofs.Soundness
import Tenure.Proofs.Spans
import Tenure.Proofs.Standing
import Tenure.Proofs.Starts
import Tenure.Proofs.StorageChains
import Tenure.Proofs.Stranding
import Tenure.Proofs.Strays
import Tenure.Proofs.Sweep
import Tenure.Proofs.TermSteps
import Tenure.Proofs.Terms
import Tenure.Proofs.Transactions
import Tenure.Proofs.Uncancelling
import Tenure.Proofs.Undoing
import Tenure.Proofs.Versions
import Tenure.Proofs.Views
import Tenure.Proofs.Walking
import Tenure.Proofs.WriteFrames
import Tenure.Proofs.Writes
import Tenure.Reading
import Tenure.Run
import Tenure.Settings.Document
import Tenure.Settings.Environment
