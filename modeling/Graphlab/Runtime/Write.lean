import Graphlab.Runtime.Data

/-!
# The critical sections of the engine

Every change the constructor or the worker makes to `state_` happens inside one lock
region.  A `Write` names such a region together with the local values it uses, and
`Write.apply` is what it does to the document; whether the region ends in `save` is
said where it is used.  Naming the regions keeps the record of a run first order: an
event says which region was committed, and a property of all of them is a case
analysis.

## Main definitions

* `Run.event`, `Run.bump` — `event` and `bump` of `telemetry/engine.cpp`.
* `RunWrite`, `Write` and their `apply` — the regions and their effect.
-/

namespace Graphlab.Runtime

/-- One more entry of a timeline, which keeps the newest 4096. -/
def appendEvent (clock : Clock) (kind : String) (detail : Detail) (list : List TimelineEvent) :
    List TimelineEvent :=
  let list := list ++ [⟨kind, clock.now, clock.boot, detail⟩]
  if list.length > 4096 then list.drop 1 else list

namespace Run

/-- `event`: append to the timeline. -/
def event (r : Run) (clock : Clock) (kind : String) (detail : Detail) : Run :=
  { r with timeline := appendEvent clock kind detail r.timeline }

/-- `bump`: the next revision. -/
def bump (r : Run) : Run := { r with revision := r.revision + 1 }

/-- `r["faults"][fid]["state"] = value`. -/
def setFault (r : Run) (fid : FaultId) (value : FaultState) : Run :=
  { r with faults := r.faults.modify fid fun f => { f with state := value } }

/-- `recording` of `execute`. -/
def recording (r : Run) : Bool := r.topology.captureRequired

/-- Some resource is a virtual machine. -/
def hasVm (r : Run) : Bool := r.resources.any fun x => x.kind == .qemu

/-- The label `close_captures` commits: a gap known before, or a worker that did not
report `closed`, leaves the capture incomplete. -/
def closedCoverage (coverage : Coverage) (observations : List Observation) : Coverage :=
  if coverage.isIncomplete || observations.any (fun o => o.state != "closed") then
    .closedIncomplete
  else .closed

/-- The label a completed operation commits, from the snapshot `r` taken before. -/
def completedCoverage (r : Run) : Coverage :=
  if r.state == .ready then .recording
  else if r.captureCoverage == .closedIncomplete then .closedIncomplete
  else .closed

/-- The errors a health observation leaves: of the collector, and of each owned
container that reports one or whose telemetry was refused. -/
def healthErrors (r : Run) (health : Health) : List (String × String) :=
  (match health.error with
    | some e => [("collector", e)]
    | none => []) ++
  health.nodes.filterMap fun node =>
    if r.resources.any (fun x => x.kind == .container && x.logical == node.id) then
      match node.error with
      | some e => some (node.id, e)
      | none => if node.rejected then some (node.id, "application_report_rejected") else none
    else none

end Run

/-- The wire name of an operation. -/
def Operation.name : Operation → String
  | .start => "start"
  | .stop => "stop"
  | .resume => "resume"
  | .destroy => "destroy"
  | .recover => "recover"
  | .faultApply => "fault.apply"
  | .faultRemove => "fault.remove"

/-- The wire name of a fault state. -/
def FaultState.name : FaultState → String
  | .queued => "queued"
  | .applying => "applying"
  | .active => "active"
  | .removing => "removing"
  | .removed => "removed"
  | .cancelled => "cancelled"
  | .recoveryRequired => "recovery-required"

/-- A lock region that changes one run, with the values it captures. -/
inductive RunWrite
  /-- The `state` lambda of `execute`. -/
  | state (value : RunState)
  /-- Record the intent to create a resource. -/
  | intent (resource : Resource)
  /-- Record the identity of the resource just created. -/
  | prepared (identity : Identity)
  /-- `cleanup` records that the resource at `index` is gone. -/
  | removed (index : ℕ)
  /-- `arm`: retire the captures of the last epoch and open the next one. -/
  | nextEpoch
  /-- `arm`: the launch intents of this epoch. -/
  | planned (captures : List Capture)
  /-- `arm`: every worker has acknowledged. -/
  | armed (observed : List Observation)
  /-- `close_captures`, with the coverage of its snapshot. -/
  | closed (coverage : Coverage) (observations : List Observation)
  /-- `monitor` found the captures healthy. -/
  | healthy (status : List Observation)
  /-- `monitor` recorded a failure. -/
  | monitorFailed (error : String) (held : Bool)
  /-- `m5_clear` removed a fault. -/
  | faultCleared (fid : FaultId)
  /-- `m5_monitor` is about to remove an expired fault. -/
  | faultExpiring (fid : FaultId)
  /-- `m5_monitor` removed an expired fault. -/
  | faultExpired (fid : FaultId)
  /-- The first region of `m5_fault_failure`. -/
  | faultFailure (fid : FaultId) (error : String)
  /-- The second region of `m5_fault_failure`. -/
  | faultQuiescence (fid : FaultId) (failure : String)
  /-- `m5_monitor` recorded a health observation, with its snapshot of the run. -/
  | health (run : Run) (value : Health)
  /-- `m5_monitor` recorded samples; `gaps` are the derived gaps. -/
  | samples (began : ℕ) (gaps : List (String × String))
  /-- The constructor advances the controller generation of a run. -/
  | adopting
  /-- The constructor recorded the adopted workers. -/
  | adoptionObserved (observed : List Observation)
  /-- The constructor could not adopt a terminal session. -/
  | sessionLost
  /-- The constructor reconciled or adopted a run. -/
  | adopted (wasStopped wasClosed : Bool)
  /-- The constructor could not adopt a run. -/
  | adoptionFailed (error : String)
  /-- `m5_recover` removed a fault. -/
  | faultRecovered (fid : FaultId)

/-- The new coverage of a run whose controller was interrupted. -/
def adoptingCoverage (coverage : Coverage) : Coverage :=
  if !coverage.isClosed && coverage != .incomplete then .interruptedController else coverage

/-- The effect of a region on its run. -/
def RunWrite.apply (clock : Clock) (r : Run) : RunWrite → Run
  | .state value => { r with state := value }
  | .intent resource =>
    { r with resources := r.resources ++ [{ resource with state := .intent }] }
  | .prepared identity =>
    { r with resources := r.resources.modify (r.resources.length - 1) fun x =>
        { x with identity := some identity, state := .prepared } }
  | .removed index =>
    { r with resources := r.resources.modify index fun x => { x with state := .removed } }
  | .nextEpoch =>
    { r with
      captureHistory := r.captureHistory ++ r.captures
      captures := []
      captureEpoch := r.captureEpoch + 1 }
  | .planned captures => { r with captures := captures }
  | .armed observed =>
    { r with captureObservations := observed, captureCoverage := .armed, state := .armed }
  | .closed coverage observations =>
    { r with
      captureObservations := observations
      captureCoverage := Run.closedCoverage coverage observations }
  | .healthy status => { r with captureObservations := status }
  | .monitorFailed error held =>
    { r with
      state := .reconciling
      captureCoverage := .incomplete
      captureError := some error
      quiescenceAcknowledged := held }
  | .faultCleared fid =>
    (r.setFault fid .removed).event clock "fault-removed"
      (.fields [("faultId", fid), ("reason", "run-cleanup")])
  | .faultExpiring fid => r.setFault fid .removing
  | .faultExpired fid =>
    (r.setFault fid .removed).bump.event clock "fault-expired" (.fields [("faultId", fid)])
  | .faultFailure fid error =>
    ({ (r.setFault fid .recoveryRequired) with
      state := .reconciling
      faultRecoveryError := some error
      quiescenceAcknowledged := false
      quiescenceError := none }).bump.event clock "fault-recovery-required"
        (.fields [("faultId", fid), ("error", error)])
  | .faultQuiescence fid failure =>
    ({ r with
      quiescenceAcknowledged := failure = "" || r.quiescenceAcknowledged
      quiescenceError := if failure = "" then r.quiescenceError else some failure
      }).event clock "fault-quiescence"
        (.fields [("faultId", fid),
          ("acknowledged", if failure = "" then "true" else "false"), ("error", failure)])
  | .health run value =>
    ({ r with
      applicationTelemetryErrors := run.healthErrors value
      health := some value
      healthMonotonicNs := clock.now }).event clock "health" (.health value)
  | .samples began gaps =>
    { r with
      collectionDurationNs := some (clock.now - began)
      telemetryError := none
      timeline := gaps.foldl
        (fun list gap => appendEvent clock "telemetry-gap"
          (.fields [("edge", gap.1), ("reason", gap.2)]) list)
        r.timeline }
  | .adopting =>
    { r with
      controllerGeneration := r.controllerGeneration + 1
      state := .reconciling
      captureCoverage := adoptingCoverage r.captureCoverage }
  | .adoptionObserved observed => { r with captureObservations := observed }
  | .sessionLost => { r with terminalRecoveryRequired := true }
  | .adopted wasStopped wasClosed =>
    { r with state := if wasStopped && wasClosed then .stopped else r.state }
  | .adoptionFailed error => { r with captureError := some error, captureCoverage := .incomplete }
  | .faultRecovered fid =>
    (r.setFault fid .removed).event clock "fault-recovered" (.fields [("faultId", fid)])

/-- A lock region of the worker or the constructor, with the values it captures. -/
inductive Write
  /-- A region about one run. -/
  | run (id : RunId) (write : RunWrite)
  /-- The completion of `execute`, with its last snapshot. -/
  | finished (job : JobId) (run : Run) (observation : Health)
  /-- The end of a cancelled start. -/
  | startCancelled (job : JobId)
  /-- The failure handler of `work`. -/
  | failed (job : JobId) (error : String)
  /-- `monitor` could not collect. -/
  | telemetryError (error : String)
  /-- The first region of `m5_execute`. -/
  | faultBegin (job : JobId)
  /-- The last region of `m5_execute`. -/
  | faultDone (job : JobId) (cancel : Bool) (observed : String)
  /-- The end of `source_work`. -/
  | sourceDone (key : String) (outcome : SourceOutcome) (error : String)
  /-- The constructor marks what the last process left unfinished. -/
  | interrupted
  /-- A `save` with nothing new. -/
  | flush

namespace Write

/-- What a restart does to one job that was pending. -/
def interruptJob (j : Job) : Job :=
  if j.pending then { j with state := .failed, error := some "agent_interrupted" } else j

/-- What a restart does to one run: one with a pending job needs reconciliation. -/
def interruptRun (s : State) (id : RunId) (r : Run) : Run :=
  if s.jobs.toList.any (fun e => e.2.pending && e.2.runId == id) then
    { r with state := .reconciling }
  else r

/-- What a restart does to one source command that was requested. -/
def interruptCommand (c : SourceCommand) : SourceCommand :=
  if c.outcome == .requested then
    { c with outcome := .interrupted, error := some "agent_restarted_no_replay" }
  else c

/-- The first region of `m5_execute`: a cancelled application ends here, so does the
removal of a fault that is gone; otherwise the intent is recorded. -/
def beginFault (clock : Clock) (s : State) (job : JobId) (j : Job) : State :=
  match s.runs[j.runId]?.bind fun r => r.faults[j.faultId]? with
  | none => s
  | some fault =>
    if j.operation == .faultApply && j.cancelRequested then
      (s.modifyJob job fun j => { j with state := .cancelled }).modifyRun j.runId fun r =>
        (r.setFault j.faultId .cancelled).event clock "fault-cancelled"
          (.fields [("faultId", j.faultId)])
    else if j.operation == .faultRemove && !fault.state.live then
      s.modifyJob job fun j => { j with state := .succeeded }
    else
      s.modifyRun j.runId fun r =>
        r.setFault j.faultId (if j.operation == .faultApply then .applying else .removing)

/-- The state a finished fault job leaves its fault in. -/
def doneState (j : Job) (cancel : Bool) : FaultState :=
  if cancel then .cancelled
  else if j.operation == .faultApply then .active else .removed

/-- The record of a finished fault job: an applied fault starts its deadline here. -/
def doneFault (clock : Clock) (j : Job) (cancel : Bool) (observed : String) (f : Fault) : Fault :=
  let f := { f with state := doneState j cancel, observed := some observed }
  if j.operation == .faultApply && !cancel then
    { f with activatedMonotonicNs := some clock.now
             expiresMonotonicNs := some (clock.now + f.durationSeconds * 1000000000) }
  else f

/-- The run a finished fault job leaves. -/
def doneRun (clock : Clock) (j : Job) (cancel : Bool) (observed : String) (r : Run) : Run :=
  ({ r with faults := r.faults.modify j.faultId (doneFault clock j cancel observed) }).event
    clock ("fault-" ++ (doneState j cancel).name)
    (.fields [("faultId", j.faultId),
      ("placement", ((r.faults[j.faultId]?).map Fault.placement).getD "")])

/-- The last region of `m5_execute`. -/
def finishFault (clock : Clock) (s : State) (job : JobId) (j : Job) (cancel : Bool)
    (observed : String) : State :=
  (s.modifyRun j.runId (doneRun clock j cancel observed)).modifyJob job fun j =>
    { j with state := if cancel then .cancelled else .succeeded }

/-- The run a failed job leaves. -/
def failRun (r : Run) : Run :=
  { r with
    state := .reconciling
    captureCoverage := if r.recording then .incomplete else r.captureCoverage }

/-- The failure handler of `work`. -/
def failJob (s : State) (job : JobId) (j : Job) (error : String) : State :=
  (s.modifyJob job fun j => { j with state := .failed, error := some error }).modifyRun
    j.runId failRun

/-- The run a completed job leaves, from the snapshot `last` taken before. -/
def finishRun (last : Run) (observation : Health) (r : Run) : Run :=
  { r with
    observation := some observation
    captureCoverage := if last.recording then last.completedCoverage else r.captureCoverage }

/-- The completion of `execute`. -/
def finishJob (s : State) (job : JobId) (last : Run) (observation : Health) : State :=
  (s.modifyRun last.id (finishRun last observation)).modifyJob job fun j =>
    { j with state := .succeeded }

/-- The effect of a region on the document. -/
def apply (clock : Clock) (s : State) : Write → State
  | .run id write => s.modifyRun id fun r => write.apply clock r
  | .finished job last observation => finishJob s job last observation
  | .startCancelled job => s.modifyJob job fun j => { j with state := .cancelled }
  | .failed job error =>
    match s.jobs[job]? with
    | some j => failJob s job j error
    | none => s
  | .telemetryError error => { s with runs := s.runs.map fun _ r =>
    if r.state == .destroyed then r else { r with telemetryError := some error } }
  | .faultBegin job =>
    match s.jobs[job]? with
    | some j => beginFault clock s job j
    | none => s
  | .faultDone job cancel observed =>
    match s.jobs[job]? with
    | some j => finishFault clock s job j cancel observed
    | none => s
  | .sourceDone key outcome error =>
    { s with sourceCommands := s.sourceCommands.modify key fun c =>
        { c with outcome := outcome, error := some error } }
  | .interrupted =>
    { s with
      sourceCommands := s.sourceCommands.map fun _ c => interruptCommand c
      jobs := s.jobs.map fun _ j => interruptJob j
      runs := s.runs.map fun id r => interruptRun s id r }
  | .flush => s

/-- A region that stores samples calls the telemetry database before it saves; when
that throws after `n` of the gap events, this is what it has done. -/
def aborted (n : ℕ) : Write → Option Write
  | .run id (.samples began gaps) => some (.run id (.samples began (gaps.take n)))
  | _ => none

end Write
end Graphlab.Runtime
