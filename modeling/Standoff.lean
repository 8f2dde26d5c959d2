import Standoff.Annotator
import Standoff.Proofs.Aborts
import Standoff.Proofs.Acceptance
import Standoff.Proofs.Atomicity
import Standoff.Proofs.Confluence
import Standoff.Proofs.Cursor
import Standoff.Proofs.Leaves
import Standoff.Proofs.Readings
import Standoff.Proofs.Refusals
import Standoff.Proofs.Restriction
import Standoff.Proofs.Survival
import Standoff.Proofs.Transcripts
import Standoff.SourceCache
import Standoff.Proofs.Interning
import Standoff.Proofs.Checks
import Standoff.Proofs.Families
import Standoff.Proofs.Relinks
import Standoff.Proofs.Histories
import Standoff.Proofs.Pending
import Standoff.Proofs.Lines
import Standoff.Proofs.Outlines
import Standoff.Proofs.Recency
import Standoff.Proofs.Slices
import Standoff.Proofs.Splits
import Standoff.Proofs.Placements
import Standoff.Proofs.StoredSessions
