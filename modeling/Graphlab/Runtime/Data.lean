import Mathlib.Data.Finset.Basic
import Mathlib.Data.String.Basic

/-!
# The state document of the agent

`Engine` keeps one JSON document, `state_`, and commits all of it to one row of
`state.sqlite`.  This module is that document: runs, jobs, idempotency keys and
source commands, as maps from identifiers in key order.

Strings with a fixed set of values are enumerations here.  Counters that the source
keeps as decimal strings (`revision`, `captureEpoch`, `controllerGeneration`, the
nanosecond fields) are natural numbers; each is only ever incremented by one or
stamped from the monotonic clock.  Wall-clock timestamps are written by the source
and read by no function modelled here, so they are left out.

## Main definitions

* `RunState`, `JobState`, `Operation`, `Coverage`, `FaultState` — the enumerations.
* `Run`, `Job`, `Fault`, `Resource`, `Capture` — the records.
* `State` — the document, with `State.modifyRun` and `State.modifyJob`.
* `resources` — the resources a topology calls for, in preparation order.
-/

namespace Graphlab.Runtime

open Std (TreeMap)

abbrev RunId := String
abbrev JobId := String
abbrev FaultId := String

/-- `run["state"]`. -/
inductive RunState
  | preparing | armed | converging | ready | stopped
  | compensating | destroying | destroyed | reconciling
  deriving DecidableEq, Repr, Inhabited

/-- `job["state"]`. -/
inductive JobState
  | queued | running | succeeded | failed | cancelled
  deriving DecidableEq, Repr, Inhabited

/-- `job["operation"]`. -/
inductive Operation
  | start | stop | resume | destroy | recover | faultApply | faultRemove
  deriving DecidableEq, Repr, Inhabited

/-- `run["captureCoverage"]`. -/
inductive Coverage
  | pending | unavailable | armed | recording
  | closed | closedIncomplete | incomplete | interruptedController
  deriving DecidableEq, Repr, Inhabited

/-- `coverage.starts_with("closed")`. -/
def Coverage.isClosed : Coverage → Bool
  | .closed => true
  | .closedIncomplete => true
  | _ => false

/-- The labels that record a gap in the capture. -/
def Coverage.isIncomplete : Coverage → Bool
  | .incomplete => true
  | .closedIncomplete => true
  | _ => false

/-- `resource["state"]`. -/
inductive ResourceState
  | intent | prepared | removed
  deriving DecidableEq, Repr, Inhabited

/-- `fault["state"]`. -/
inductive FaultState
  | queued | applying | active | removing | removed | cancelled | recoveryRequired
  deriving DecidableEq, Repr, Inhabited

/-- `live` of `telemetry/engine.cpp`. -/
def FaultState.live : FaultState → Bool
  | .removed => false
  | .cancelled => false
  | _ => true

inductive Direction
  | aToB | bToA
  deriving DecidableEq, Repr, Inhabited

inductive NodeKind
  | docker | qemu | ovsSwitch
  deriving DecidableEq, Repr, Inhabited

inductive ResourceKind
  | network | bridge | qemu | container | edge
  deriving DecidableEq, Repr, Inhabited

inductive Profile
  | full | minimal
  deriving DecidableEq, Repr, Inhabited

/-- `command["outcome"]` of a source command. -/
inductive SourceOutcome
  | requested | acknowledged | failed | timedOut | interrupted
  deriving DecidableEq, Repr, Inhabited

/-! ## Topologies -/

structure Node where
  kind : NodeKind
  workload : String := ""
  ports : List String := []
  deriving DecidableEq, Repr, Inhabited

/-- One entry of `topology["application"]["edges"]`. -/
structure ApplicationEdge where
  id : String
  source : String
  deriving DecidableEq, Repr, Inhabited

/-- What the executor reads of a canonical topology.  Objects are lists in key
order. -/
structure Topology where
  captureRequired : Bool
  networks : List String := []
  nodes : List (String × Node) := []
  edges : List String := []
  application : List ApplicationEdge := []
  deriving DecidableEq, Repr, Inhabited

/-- A catalog entry: the topology, and the `quiesce` contract of each workload of its
artifact lock. -/
structure Resolved where
  topology : Topology
  workloads : List (String × String) := []
  deriving DecidableEq, Repr, Inhabited

/-! ## Records of a run -/

/-- What the backend reports about a prepared resource. -/
structure Identity where
  id : String := ""
  runnerId : Option String := none
  deriving DecidableEq, Repr, Inhabited

structure Resource where
  key : String
  kind : ResourceKind
  logical : String
  state : ResourceState := .intent
  identity : Option Identity := none
  deriving DecidableEq, Repr, Inhabited

/-- A capture descriptor, the durable launch intent of one capture worker. -/
structure Capture where
  id : String
  edge : String
  epoch : ℕ
  deriving DecidableEq, Repr, Inhabited

/-- A worker's answer to a capture control call. -/
structure Observation where
  id : String := ""
  state : String := ""
  deriving DecidableEq, Repr, Inhabited

structure Fault where
  id : FaultId
  edge : String
  direction : Direction
  delayMs : ℕ
  lossPercent : ℕ
  durationSeconds : ℕ
  placement : String := ""
  state : FaultState := .queued
  bootId : String := ""
  observed : Option String := none
  activatedMonotonicNs : Option ℕ := none
  expiresMonotonicNs : Option ℕ := none
  deriving DecidableEq, Repr, Inhabited

/-- A terminal session descriptor. -/
structure Session where
  id : String
  node : String
  kind : String
  recordInput : Bool := false
  deriving DecidableEq, Repr, Inhabited

structure CapturePolicy where
  runBytes : ℕ := 6 * 1024 * 1024 * 1024
  reserveBytes : ℕ := 5 * 1024 * 1024 * 1024
  rotateBytes : ℕ := 64 * 1024 * 1024
  rotateSeconds : ℕ := 60
  deriving DecidableEq, Repr, Inhabited

/-- One node of a health observation.  `rejected` says that the application
telemetry of its gate was refused. -/
structure NodeHealth where
  id : String
  error : Option String := none
  rejected : Bool := false
  deriving DecidableEq, Repr, Inhabited

/-- The result of `Backend::observe`. -/
structure Health where
  error : Option String := none
  nodes : List NodeHealth := []
  deriving DecidableEq, Repr, Inhabited

/-- The `detail` object of a timeline event. -/
inductive Detail
  | fields (entries : List (String × String))
  | health (value : Health)
  deriving DecidableEq, Repr, Inhabited

structure TimelineEvent where
  kind : String
  monotonicNs : ℕ
  bootId : String
  detail : Detail
  deriving DecidableEq, Repr, Inhabited

/-- The boot identifier and the monotonic clock. -/
structure Clock where
  boot : String := ""
  now : ℕ := 0
  deriving DecidableEq, Repr, Inhabited

/-- One run.  A `faults` map that the source has not created yet is empty here. -/
structure Run where
  id : RunId
  observationProfile : Profile := .full
  revision : ℕ := 1
  state : RunState := .preparing
  topologyHash : String := ""
  topology : Topology
  workloads : List (String × String) := []
  resources : List Resource := []
  captureCoverage : Coverage := .pending
  capturePolicy : CapturePolicy := {}
  captureEpoch : ℕ := 0
  controllerGeneration : ℕ := 1
  captures : List Capture := []
  captureHistory : List Capture := []
  captureObservations : List Observation := []
  captureError : Option String := none
  sessions : List Session := []
  terminalRecoveryRequired : Bool := false
  faults : TreeMap FaultId Fault := ∅
  faultRecoveryError : Option String := none
  quiescenceAcknowledged : Bool := false
  quiescenceError : Option String := none
  timeline : List TimelineEvent := []
  telemetryError : Option String := none
  applicationTelemetryErrors : List (String × String) := []
  health : Option Health := none
  healthMonotonicNs : ℕ := 0
  collectionDurationNs : Option ℕ := none
  observation : Option Health := none

structure Job where
  id : JobId
  runId : RunId
  operation : Operation
  faultId : FaultId := ""
  state : JobState := .queued
  revision : ℕ
  cancelRequested : Bool := false
  error : Option String := none
  deriving DecidableEq, Repr, Inhabited

/-- `pending` of `runtime/engine.cpp`. -/
def Job.pending (j : Job) : Bool := j.state == .queued || j.state == .running

/-- An entry of `state_["keys"]`. -/
structure Binding where
  hash : String
  jobId : JobId
  deriving DecidableEq, Repr, Inhabited

/-- The body of a source command request. -/
structure SourceRequest where
  runId : RunId
  node : String
  apiVersion : String
  instanceId : String
  epoch : String
  source : String
  action : String
  requestId : String
  deriving DecidableEq, Repr, Inhabited

/-- A record of the source command ledger. -/
structure SourceCommand where
  request : SourceRequest
  outcome : SourceOutcome := .requested
  deadlineMs : ℕ
  error : Option String := none
  deriving DecidableEq, Repr, Inhabited

/-- `wire` of `source_control.cpp`: what a command looks like to the workload. -/
structure SourceWire where
  apiVersion : String := ""
  epoch : String := ""
  source : String := ""
  action : String := ""
  requestId : String := ""
  deriving DecidableEq, Repr, Inhabited

/-- The workload's answer to a command: the command, with an outcome. -/
structure Acknowledgement where
  command : SourceWire := {}
  outcome : String := ""
  deriving DecidableEq, Repr, Inhabited

/-- One source of a workload's status. -/
structure SourceStatus where
  id : String
  state : String
  generatedDatagrams : String
  deriving DecidableEq, Repr, Inhabited

/-- The workload's status; `size` is the length of its JSON text. -/
structure Capability where
  apiVersion : String := ""
  epoch : String := ""
  sources : List SourceStatus := []
  size : ℕ := 0
  deriving DecidableEq, Repr, Inhabited

/-! ## The document -/

/-- `state_`. -/
structure State where
  runs : TreeMap RunId Run := ∅
  jobs : TreeMap JobId Job := ∅
  keys : TreeMap String Binding := ∅
  sourceCommands : TreeMap String SourceCommand := ∅

namespace State

/-- The document a fresh state directory starts with. -/
def empty : State := {}

def modifyRun (s : State) (id : RunId) (f : Run → Run) : State :=
  { s with runs := s.runs.modify id f }

def modifyJob (s : State) (id : JobId) (f : Job → Job) : State :=
  { s with jobs := s.jobs.modify id f }

@[simp] theorem modifyRun_jobs (s : State) (id : RunId) (f : Run → Run) :
    (s.modifyRun id f).jobs = s.jobs := rfl
@[simp] theorem modifyJob_runs (s : State) (id : JobId) (f : Job → Job) :
    (s.modifyJob id f).runs = s.runs := rfl

theorem modifyRun_run (s : State) (id id' : RunId) (f : Run → Run) :
    (s.modifyRun id f).runs[id']? = s.runs[id']?.map fun r => if id = id' then f r else r := by
  simp only [modifyRun, TreeMap.getElem?_modify, Std.LawfulEqCmp.compare_eq_iff_eq]
  by_cases h : id = id'
  · subst h; simp
  · cases s.runs[id']? <;> simp [h]

theorem modifyJob_job (s : State) (id id' : JobId) (f : Job → Job) :
    (s.modifyJob id f).jobs[id']? = s.jobs[id']?.map fun j => if id = id' then f j else j := by
  simp only [modifyJob, TreeMap.getElem?_modify, Std.LawfulEqCmp.compare_eq_iff_eq]
  by_cases h : id = id'
  · subst h; simp
  · cases s.jobs[id']? <;> simp [h]

/-- Some job is queued or running. -/
def hasPending (s : State) : Bool := s.jobs.toList.any fun e => e.2.pending

theorem hasPending_iff (s : State) :
    s.hasPending = true ↔ ∃ (j : JobId) (job : Job), s.jobs[j]? = some job ∧ job.pending = true := by
  simp [hasPending, TreeMap.mem_toList_iff_getElem?_eq_some]

theorem hasPending_eq_false_iff (s : State) :
    s.hasPending = false ↔
      ∀ (j : JobId) (job : Job), s.jobs[j]? = some job → job.pending = false := by
  simp [hasPending, TreeMap.mem_toList_iff_getElem?_eq_some]

end State

/-- `resources`: management networks, then nodes, then edges. -/
def resources (run : Run) : List Resource :=
  (run.topology.networks.map fun id =>
    { key := "management/" ++ id, kind := .network, logical := id }) ++
  (run.topology.nodes.map fun n =>
    { key := "node/" ++ n.1
      kind := match n.2.kind with
        | .ovsSwitch => .bridge
        | .qemu => .qemu
        | .docker => .container
      logical := n.1 }) ++
  (run.topology.edges.map fun id => { key := "edge/" ++ id, kind := .edge, logical := id })

end Graphlab.Runtime
