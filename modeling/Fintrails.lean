import Fintrails.TrackerSteps
import Fintrails.TrackerWindow
import Fintrails.TrackerInvariant
import Fintrails.TrackerFinality
import Fintrails.TrackerReports
import Fintrails.Poller
import Fintrails.StablePoller
import Fintrails.Feeding
import Fintrails.Persistence
import Fintrails.World
import Fintrails.Reorgs
import Fintrails.RunEffects
import Fintrails.AppendOnly
import Fintrails.LaggingHeads
import Fintrails.Restarts
import Fintrails.FailedAdvance
import Fintrails.ShiftingWalk
import Fintrails.Ledger
import Fintrails.Firsts
import Fintrails.Store
import Fintrails.Reversal
import Fintrails.Conservation
import Fintrails.Reconcile
import Fintrails.Deliveries
import Fintrails.FetchedLater
import Fintrails.Retraction
import Fintrails.Windows
import Fintrails.Backfill
import Fintrails.FailingRounds
import Fintrails.Checkpoints
import Fintrails.RunLoop
import Fintrails.Unreliable
import Fintrails.RpcSource
import Fintrails.Interrupted
import Fintrails.Finality
import Fintrails.Redelivery
import Fintrails.Handover
import Fintrails.PollLists
import Fintrails.Holdings
import Fintrails.Mirroring
import Fintrails.Register
import Fintrails.Records
import Fintrails.Logged
import Fintrails.Requests
import Fintrails.LiteralLoop
import Fintrails.Progress
import Fintrails.Batching
import Fintrails.DeepReorgs
import Fintrails.WiderWindow
import Fintrails.ConfirmationDepth
import Fintrails.Tokens
import Fintrails.Calls
import Fintrails.Unsigned
