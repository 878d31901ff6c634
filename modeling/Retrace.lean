import Retrace.Crew
import Retrace.Directive
import Retrace.Shared
import Retrace.Source
import Retrace.Proofs.Calls
import Retrace.Proofs.WellFormed
import Retrace.Proofs.Checked
import Retrace.Proofs.Ledger
import Retrace.Proofs.WayBack
import Retrace.Proofs.Bracket
import Retrace.Proofs.Depths
import Retrace.Proofs.Alike
import Retrace.Proofs.Refusal
import Retrace.Proofs.Trail
import Retrace.Proofs.Drain
import Retrace.Proofs.Rounds
import Retrace.Proofs.Closing
import Retrace.Proofs.Bookmark
import Retrace.Proofs.Delivery
import Retrace.Proofs.Handles
import Retrace.Proofs.Speculation
import Retrace.Proofs.Replay
import Retrace.Proofs.Loading
import Retrace.Proofs.LineNote
import Retrace.Proofs.Filling
import Retrace.Proofs.Skipping
import Retrace.Proofs.NormalForm
import Retrace.Proofs.Pieces
import Retrace.Proofs.Levels
import Retrace.Proofs.Codes
import Retrace.Proofs.Stamps
import Retrace.Proofs.Wording
