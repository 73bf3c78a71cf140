import Workq.Worker.AtMostOnce
import Workq.Worker.Coherence
import Workq.Worker.Pending
import Workq.Worker.FindJobs
import Workq.Worker.Shutdown
import Workq.Worker.Tokens
import Workq.Jobs.LockId
import Workq.Server.Channel
import Workq.Server.Wakeup
import Workq.Server.Start
import Workq.Server.Idle
import Workq.Server.Backoff
import Workq.Configuration.Reload
import Workq.Configuration.Neighbours
import Workq.Adaptor.Row
import Workq.Adaptor.Query
import Workq.Adaptor.Connection
import Workq.RunJob.Descriptors
import Workq.RunJob.Pace
import Workq.RunJob.Lifecycle
import Workq.PString
import Workq.Worker.Board
import Workq.Worker.History
import Workq.Worker.Outcome
import Workq.Worker.Order
import Workq.Worker.Progress
import Workq.Worker.Coalesce
import Workq.Server.Daemon
import Workq.Server.FirstThread
import Workq.Server.Cascade
import Workq.Server.Drain
import Workq.Workqd
import Workq.Worker.Execute
import Workq.RunJob.Inherit
import Workq.Jobs.Operations
import Workq.Server.Shutdown
import Workq.Server.Ending
