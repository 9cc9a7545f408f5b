import Graphlab.Runtime.Active
import Graphlab.Runtime.Reconcile
import Graphlab.Runtime.Resources
import Graphlab.Runtime.Barrier
import Graphlab.Runtime.Admission
import Graphlab.Runtime.Coverage
import Graphlab.Runtime.Workers
import Graphlab.Runtime.Faults
import Graphlab.Runtime.Twins
import Graphlab.Messages.Agreement
import Graphlab.Messages.Correlation
import Graphlab.Packets.Window
import Graphlab.Packets.Pruning
import Graphlab.Packets.Isolation
import Graphlab.Packets.Recovery
import Graphlab.Capture.Inspect
import Graphlab.Terminal.Torn
import Graphlab.Contracts.Networks
import Graphlab.Contracts.Documents
import Graphlab.Planner.Executor
import Graphlab.Application.Series
import Graphlab.Logs.Candidates
import Graphlab.Node.Control
import Graphlab.Node.Reports
import Graphlab.Node.Sources
import Graphlab.Telemetry.Buckets
import Graphlab.Terminal.Worker
import Graphlab.Terminal.Readiness
