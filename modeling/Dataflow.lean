import Dataflow.Document.Encoding
import Dataflow.Document.Save
import Dataflow.Graph.Lemmas
import Dataflow.Script.Stock
import Dataflow.Proofs.Arena
import Dataflow.Proofs.Cycles
import Dataflow.Proofs.Evaluation
import Dataflow.Proofs.Propagation
import Dataflow.Proofs.Refreshed
import Dataflow.Proofs.Typed
import Dataflow.Proofs.Suited
import Dataflow.Proofs.Seeded
import Dataflow.Proofs.Honest
import Dataflow.Proofs.Tended
import Dataflow.Proofs.Primed
import Dataflow.Proofs.Sketch
import Dataflow.Proofs.Draft
import Dataflow.Proofs.Redraw
import Dataflow.Proofs.Rearrange
import Dataflow.Proofs.Replay
import Dataflow.Proofs.Reload
import Dataflow.Proofs.Start
import Dataflow.Proofs.Pristine
import Dataflow.Proofs.Normal
import Dataflow.Proofs.Beside
import Dataflow.Proofs.Selected
import Dataflow.Proofs.Minor
import Dataflow.Proofs.Listening
import Dataflow.Proofs.Mirror
import Dataflow.Proofs.Halted
import Dataflow.Proofs.Issue
import Dataflow.Proofs.Unclaimed
import Dataflow.Proofs.Strict
import Dataflow.Proofs.StrictWires
import Dataflow.Proofs.StrictEdits
import Dataflow.Proofs.StrictReads
import Dataflow.Proofs.StrictRun
import Dataflow.Proofs.Needed
import Dataflow.Proofs.Remnant
import Dataflow.Proofs.Falling
import Dataflow.Proofs.Course
import Dataflow.Proofs.Counterpart
import Dataflow.Proofs.Noted
import Dataflow.Proofs.Upstream
import Dataflow.Proofs.Lapse
import Dataflow.Proofs.Subtree
import Dataflow.Proofs.Downstream
import Dataflow.Proofs.Shown
import Dataflow.Proofs.Undo
import Dataflow.Proofs.Recoverable
import Dataflow.Proofs.Replica
import Dataflow.Proofs.Reread
import Dataflow.Proofs.Storable
import Dataflow.Proofs.Reorder
import Dataflow.Proofs.Depth
import Dataflow.Proofs.Exact
import Dataflow.Proofs.Switchboard
import Dataflow.Proofs.Influences
import Dataflow.Proofs.Countdown
import Dataflow.Proofs.Written
import Dataflow.Proofs.Naming
