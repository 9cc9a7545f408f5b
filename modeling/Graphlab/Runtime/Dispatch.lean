import Graphlab.Runtime.Machine
import Graphlab.Runtime.SourceControl

/-!
# Requests

`Engine::dispatch` and the dispatchers it calls hold the mutex from the `stopping_`
check to the last `save`, so a request is one atomic step.  Requests that only read
are left out.

The parameters are typed: a JSON value of another shape is refused by `fields` or by
a JSON type error before anything is looked at.  A parameter that may be absent is an
option, so two payloads are equal here exactly when their JSON is.  What the source
takes from elsewhere is a parameter: the digest of a request, the catalog
(`Site`), and the random identifiers, backend results and `save` failures of one
request (`Draw`).

## Main definitions

* `Request`, `Site`, `Draw`, `Response`.
* `dispatch` — the answer to a request and the state it leaves.
-/

namespace Graphlab.Runtime

/-- `params["capturePolicy"]`: any of the four numbers. -/
structure PolicyParams where
  runBytes : Option ℤ := none
  reserveBytes : Option ℤ := none
  rotateBytes : Option ℤ := none
  rotateSeconds : Option ℤ := none
  deriving DecidableEq, Repr, Inhabited

structure StartParams where
  topologyHash : String
  idempotencyKey : String
  developmentMode : Option Bool := none
  capturePolicy : Option PolicyParams := none
  observationProfile : Option String := none
  deriving DecidableEq, Repr, Inhabited

structure OperateParams where
  runId : RunId
  operation : String
  expectedRevision : String
  idempotencyKey : String
  deriving DecidableEq, Repr, Inhabited

/-- `params["fault"]`. -/
structure FaultParams where
  edge : String
  direction : String
  kind : String
  delayMs : Option ℤ := none
  lossPercent : Option ℤ := none
  durationSeconds : Option ℤ := none
  deriving DecidableEq, Repr, Inhabited

structure ApplyParams where
  runId : RunId
  fault : FaultParams
  idempotencyKey : String
  expectedRevision : String
  deriving DecidableEq, Repr, Inhabited

structure RemoveParams where
  runId : RunId
  faultId : FaultId
  idempotencyKey : String
  expectedRevision : String
  deriving DecidableEq, Repr, Inhabited

structure OpenParams where
  runId : RunId
  node : String
  recordInput : Bool := false
  deriving DecidableEq, Repr, Inhabited

/-- The requests that can change the document. -/
inductive Request
  | start (p : StartParams)
  | operate (p : OperateParams)
  | cancel (id : JobId)
  | faultApply (p : ApplyParams)
  | faultRemove (p : RemoveParams)
  | terminalOpen (p : OpenParams)
  | sourceCommand (p : SourceRequest)
  deriving DecidableEq, Repr, Inhabited

/-- What an installation fixes: the digest of a request, the ledger key and the JSON
size of a source command, and the catalog. -/
structure Site where
  digest : Request → String
  sourceKey : ℕ → String → String
  sourceSize : SourceRequest → ℕ
  resolve : String → Option Resolved

/-- What the surroundings choose for one request. -/
structure Draw where
  runId : RunId := ""
  jobId : JobId := ""
  faultId : FaultId := ""
  /-- The failure of the request's `save`. -/
  saveError : Option String := none
  /-- The backend refuses to place a fault, or a session descriptor. -/
  planError : Option String := none
  placement : String := ""
  session : Session := default
  /-- The terminal worker does not come up. -/
  launchError : Option String := none
  /-- Nor can it be stopped. -/
  stopError : Option String := none
  /-- The failure of the second `save` of a terminal request. -/
  resaveError : Option String := none
  statusError : Option String := none
  capability : Capability := {}

inductive Response
  | accepted (jobId : JobId) (runId : RunId) (revision : ℕ)
  | acceptedFault (jobId : JobId) (runId : RunId) (faultId : FaultId) (revision : ℕ)
  | job (job : Job)
  | session (session : Session)
  | command (command : SourceCommand)
  deriving DecidableEq, Repr, Inhabited

/-! ## Parts of an admission -/

/-- `[A-Za-z0-9_-]{8,80}`. -/
def validKey (key : String) : Bool := SourceControl.repeated SourceControl.wordChar 8 80 key

/-- `std::to_string(principal) + ":" + key`. -/
def principalKey (principal : ℕ) (key : String) : String := toString principal ++ ":" ++ key

/-- The job an earlier request with this key was bound to, if the key is known; another
payload under the key is a conflict. -/
def boundJob (mem : State) (key hash : String) : Except Failure (Option Job) :=
  match mem.keys[key]? with
  | none => .ok none
  | some old =>
    if old.hash != hash then .error ⟨"idempotency_conflict", 409⟩
    else match mem.jobs[old.jobId]? with
      | none => .error ⟨"type_error", 422⟩
      | some job => .ok (some job)

/-- Record a new job and the run it leaves, and bind the job to its key. -/
def State.enqueue (mem : State) (run : Run) (key hash : String) (job : Job) : State :=
  { mem with
    runs := mem.runs.insert job.runId run
    jobs := mem.jobs.insert job.id job
    keys := mem.keys.insert key { hash, jobId := job.id } }

/-- The `save` at the end of an admission. -/
def Shared.enrol (s : Shared) (mem : State) (job : JobId) (error : Option String) : Shared :=
  match error with
  | none => { s with mem, journal := mem, admitted := job :: s.admitted }
  | some _ => { s with mem, stopping := true }

/-- Any other `save` of a request. -/
def Shared.saveRequest (s : Shared) (mem : State) (error : Option String) : Shared :=
  match error with
  | none => { s with mem, journal := mem }
  | some _ => { s with mem, stopping := true }

/-- The answer of a request that ended in `save`. -/
def answer (error : Option String) (response : Response) : Except Failure Response :=
  match error with
  | none => .ok response
  | some code => .error { code }

/-! ## Start and operate -/

/-- One number of a capture policy. -/
def policyField (default : ℕ) : Option ℤ → Except Failure ℕ
  | none => .ok default
  | some v => if v < 0 then .error ⟨"invalid_capture_policy", 422⟩ else .ok v.toNat

/-- The policy of a start, within its bounds. -/
def capturePolicyOf (p : Option PolicyParams) : Except Failure CapturePolicy := do
  let base : CapturePolicy := {}
  let p := p.getD {}
  let runBytes ← policyField base.runBytes p.runBytes
  let reserveBytes ← policyField base.reserveBytes p.reserveBytes
  let rotateBytes ← policyField base.rotateBytes p.rotateBytes
  let rotateSeconds ← policyField base.rotateSeconds p.rotateSeconds
  if runBytes < 262144 || 6 * 1024 * 1024 * 1024 < runBytes || reserveBytes < 1024 * 1024 ||
      5 * 1024 * 1024 * 1024 < reserveBytes || rotateBytes < 4096 ||
      64 * 1024 * 1024 < rotateBytes || rotateSeconds < 1 || 60 < rotateSeconds then
    throw ⟨"invalid_capture_policy", 422⟩
  return { runBytes, reserveBytes, rotateBytes, rotateSeconds }

/-- The checks of a start on the nodes of its topology. -/
def checkNodes (resolved : Resolved) : List (String × Node) → Except Failure Unit
  | [] => .ok ()
  | (_, node) :: rest =>
    if resolved.topology.captureRequired && node.kind == .docker &&
        resolved.workloads.lookup node.workload != some "supported" then
      .error ⟨"capture_requires_reversible_quiescence", 422⟩
    else if node.ports.any fun port => 15 < port.utf8ByteSize then
      .error ⟨"linux_interface_name_too_long", 422⟩
    else checkNodes resolved rest

def profileOf (p : Option String) : Except Failure Profile :=
  match p.getD "full" with
  | "full" => .ok .full
  | "minimal" => .ok .minimal
  | _ => .error ⟨"invalid_observation_profile", 422⟩

/-- The run a start creates, or the reason it is refused. -/
def newRun (site : Site) (p : StartParams) (id : RunId) (mem : State) : Except Failure Run := do
  let profile ← profileOf p.observationProfile
  if mem.runs.toList.any fun e => e.2.state != .destroyed then throw ⟨"active_run_exists", 409⟩
  match site.resolve p.topologyHash with
  | none => throw ⟨"unknown_topology", 404⟩
  | some resolved =>
    if !resolved.topology.captureRequired && !p.developmentMode.getD false then
      throw ⟨"development_mode_required", 422⟩
    let policy ← capturePolicyOf p.capturePolicy
    checkNodes resolved resolved.topology.nodes
    return {
      id
      observationProfile := profile
      topologyHash := p.topologyHash
      topology := resolved.topology
      workloads := resolved.workloads
      captureCoverage := if resolved.topology.captureRequired then .pending else .unavailable
      capturePolicy := policy }

/-- The operations `operate` knows. -/
def operationOf : String → Option Operation
  | "stop" => some .stop
  | "resume" => some .resume
  | "destroy" => some .destroy
  | "recover" => some .recover
  | _ => none

/-- The run an operation is admitted on, at its next revision, or the reason it is
refused. -/
def operatedRun (p : OperateParams) (mem : State) :
    Except Failure (RunId × Run × Operation) := do
  match mem.runs[p.runId]? with
  | none => throw ⟨"not_found", 404⟩
  | some run =>
    if p.expectedRevision != toString run.revision then throw ⟨"stale_revision", 409⟩
    match operationOf p.operation with
    | none => throw ⟨"unsupported_operation", 422⟩
    | some operation =>
      if operation == .stop && run.state != .ready && run.state != .stopped then
        throw ⟨"invalid_run_state", 409⟩
      if operation == .resume && run.state != .stopped then throw ⟨"invalid_run_state", 409⟩
      return (p.runId, run.bump, operation)

/-- `start` or `operate`. -/
inductive Lifecycle
  | start (p : StartParams)
  | operate (p : OperateParams)

def Lifecycle.key : Lifecycle → String
  | .start p => p.idempotencyKey
  | .operate p => p.idempotencyKey

def Lifecycle.request : Lifecycle → Request
  | .start p => .start p
  | .operate p => .operate p

def Lifecycle.target (site : Site) (draw : Draw) (mem : State) :
    Lifecycle → Except Failure (RunId × Run × Operation)
  | .start p => do return (draw.runId, ← newRun site p draw.runId mem, .start)
  | .operate p => operatedRun p mem

/-- The job a lifecycle request is admitted as, or an earlier one. -/
def admitLifecycle (site : Site) (principal : ℕ) (l : Lifecycle) (draw : Draw) (mem : State) :
    Except Failure (Job ⊕ (Job × State)) := do
  if !validKey l.key then throw ⟨"invalid_idempotency_key", 422⟩
  let key := principalKey principal l.key
  let hash := site.digest l.request
  match ← boundJob mem key hash with
  | some job => return .inl job
  | none =>
    if 256 ≤ mem.jobs.size then throw ⟨"journal_job_capacity", 429⟩
    if mem.hasPending then throw ⟨"operation_in_progress", 409⟩
    let (id, run, operation) ← l.target site draw mem
    let job : Job := { id := draw.jobId, runId := id, operation, revision := run.revision }
    return .inr (job, mem.enqueue run key hash job)

/-- `dispatch` for `start` and `operate`. -/
def dispatchLifecycle (site : Site) (principal : ℕ) (l : Lifecycle) (draw : Draw) (s : Shared) :
    Except Failure Response × Shared :=
  match admitLifecycle site principal l draw s.mem with
  | .error e => (.error e, s)
  | .ok (.inl job) => (.ok (.accepted job.id job.runId job.revision), s)
  | .ok (.inr (job, mem)) =>
    (answer draw.saveError (.accepted job.id job.runId job.revision),
      s.enrol mem job.id draw.saveError)

/-! ## Faults -/

/-- One number of a fault. -/
def faultField (maximum : ℤ) (v : Option ℤ) : Except Failure ℕ :=
  if v.getD 0 < 0 || maximum < v.getD 0 then .error ⟨"invalid_fault_value", 422⟩
  else .ok (v.getD 0).toNat

def directionOf : String → Option Direction
  | "a-to-b" => some .aToB
  | "b-to-a" => some .bToA
  | _ => none

/-- `telemetry::validate_fault`. -/
def validateFault (id : FaultId) (f : FaultParams) : Except Failure Fault := do
  match directionOf f.direction with
  | none => throw ⟨"invalid_fault", 422⟩
  | some direction =>
    if 80 < f.edge.utf8ByteSize || f.edge == "" || f.kind != "netem" then
      throw ⟨"invalid_fault", 422⟩
    let delayMs ← faultField 5000 f.delayMs
    let lossPercent ← faultField 100 f.lossPercent
    let durationSeconds ← faultField 3600 f.durationSeconds
    if durationSeconds == 0 || (delayMs == 0 && lossPercent == 0) then
      throw ⟨"empty_fault", 422⟩
    return { id, edge := f.edge, direction, delayMs, lossPercent, durationSeconds }

/-- Another live fault holds the edge and direction. -/
def directionBusy (run : Run) (f : Fault) : Bool :=
  run.faults.toList.any fun e =>
    e.2.state.live && e.2.edge == f.edge && e.2.direction == f.direction

/-- `fault.apply` or `fault.remove`. -/
inductive FaultRequest
  | apply (p : ApplyParams)
  | remove (p : RemoveParams)

namespace FaultRequest

def runId : FaultRequest → RunId
  | .apply p => p.runId
  | .remove p => p.runId

def key : FaultRequest → String
  | .apply p => p.idempotencyKey
  | .remove p => p.idempotencyKey

def expectedRevision : FaultRequest → String
  | .apply p => p.expectedRevision
  | .remove p => p.expectedRevision

def request : FaultRequest → Request
  | .apply p => .faultApply p
  | .remove p => .faultRemove p

def operation : FaultRequest → Operation
  | .apply _ => .faultApply
  | .remove _ => .faultRemove

/-- The fault a request is about, and the run that knows it. -/
def target (clock : Clock) (draw : Draw) (run : Run) :
    FaultRequest → Except Failure (FaultId × Run)
  | .apply p => do
      if run.state != .ready && run.state != .stopped then
        throw ⟨"fault_run_not_available", 409⟩
      if 256 ≤ run.faults.size then throw ⟨"fault_capacity", 429⟩
      let f ← validateFault draw.faultId p.fault
      if directionBusy run f then throw ⟨"fault_direction_busy", 409⟩
      match draw.planError with
      | some code => throw { code }
      | none =>
        let f := { f with placement := draw.placement, bootId := clock.boot }
        return (f.id, { run with faults := run.faults.insert f.id f })
  | .remove p => do
      if !run.faults.contains p.faultId then throw ⟨"fault_not_found", 404⟩
      return (p.faultId, run)

end FaultRequest

/-- The job a fault request is admitted as, or an earlier one. -/
def admitFault (site : Site) (principal : ℕ) (r : FaultRequest) (draw : Draw) (clock : Clock)
    (mem : State) : Except Failure (Job ⊕ (Job × State)) := do
  match mem.runs[r.runId]? with
  | none => throw ⟨"not_found", 404⟩
  | some run =>
    if !validKey r.key then throw ⟨"invalid_idempotency_key", 422⟩
    let key := principalKey principal r.key
    let hash := site.digest r.request
    match ← boundJob mem key hash with
    | some job => return .inl job
    | none =>
      if r.expectedRevision != toString run.revision then throw ⟨"stale_revision", 409⟩
      if mem.hasPending then throw ⟨"operation_in_progress", 409⟩
      if 256 ≤ mem.jobs.size then throw ⟨"journal_job_capacity", 429⟩
      let (fid, run) ← r.target clock draw run
      let run := run.bump
      let job : Job :=
        { id := draw.jobId, runId := r.runId, operation := r.operation, faultId := fid,
          revision := run.revision }
      let run := run.event clock "fault-admitted"
        (.fields [("faultId", fid), ("jobId", job.id), ("operation", r.operation.name)])
      return .inr (job, mem.enqueue run key hash job)

/-- `Engine::m5_dispatch` for the requests that admit a job. -/
def dispatchFault (site : Site) (principal : ℕ) (r : FaultRequest) (draw : Draw) (s : Shared) :
    Except Failure Response × Shared :=
  match admitFault site principal r draw s.clock s.mem with
  | .error e => (.error e, s)
  | .ok (.inl job) => (.ok (.acceptedFault job.id r.runId job.faultId job.revision), s)
  | .ok (.inr (job, mem)) =>
    (answer draw.saveError (.acceptedFault job.id r.runId job.faultId job.revision),
      s.enrol mem job.id draw.saveError)

/-! ## The other requests -/

/-- `cancel`. -/
def dispatchCancel (id : JobId) (draw : Draw) (s : Shared) : Except Failure Response × Shared :=
  match s.mem.jobs[id]? with
  | none => (.error ⟨"not_found", 404⟩, s)
  | some job =>
    if !job.pending then (.ok (.job job), s)
    else if job.operation != .start && job.operation != .faultApply then
      (.error ⟨"cleanup_operations_not_cancellable", 409⟩, s)
    else
      (answer draw.saveError (.job { job with cancelRequested := true }),
        s.saveRequest (s.mem.modifyJob id fun j => { j with cancelRequested := true })
          draw.saveError)

/-- The resource a terminal session attaches to: the last one that matches. -/
def sessionResource (run : Run) (node : String) : Option Resource :=
  (run.resources.filter fun r =>
    r.logical == node && (r.kind == .container || r.kind == .qemu)).getLast?

/-- A session whose worker did not come up is stopped; when that fails too, the run
needs recovery. -/
def launchSession (run : RunId) (draw : Draw) (s : Shared) : Except Failure Response × Shared :=
  match draw.launchError, draw.stopError with
  | none, _ => (.ok (.session draw.session), s)
  | some code, none => (.error { code }, s)
  | some code, some _ =>
    (.error { code := draw.resaveError.getD code },
      s.saveRequest (s.mem.modifyRun run fun r => { r with terminalRecoveryRequired := true })
        draw.resaveError)

/-- `terminal` with operation `open`. -/
def dispatchTerminalOpen (p : OpenParams) (draw : Draw) (s : Shared) :
    Except Failure Response × Shared :=
  match s.mem.runs[p.runId]? with
  | none => (.error ⟨"not_found", 404⟩, s)
  | some run =>
    if run.state != .ready && run.state != .stopped then
      (.error ⟨"terminal_run_not_available", 409⟩, s)
    else if s.mem.hasPending then (.error ⟨"operation_in_progress", 409⟩, s)
    else if 16 ≤ run.sessions.length then (.error ⟨"terminal_session_limit", 422⟩, s)
    else match sessionResource run p.node, draw.planError with
      | none, _ => (.error ⟨"terminal_capability_unavailable", 422⟩, s)
      | some _, some code => (.error { code }, s)
      | some _, none =>
        let opened := s.saveRequest
          (s.mem.modifyRun p.runId fun r => { r with sessions := r.sessions ++ [draw.session] })
          draw.saveError
        match draw.saveError with
        | some code => (.error { code }, opened)
        | none => launchSession p.runId draw opened

/-- The number of source commands that wait for the worker. -/
def pendingCommands (mem : State) : ℕ :=
  (mem.sourceCommands.toList.filter fun e => e.2.outcome == .requested).length

/-- A command of the same run, node and source is waiting. -/
def commandPending (mem : State) (p : SourceRequest) : Bool :=
  mem.sourceCommands.toList.any fun e =>
    e.2.outcome == .requested && e.2.request.runId == p.runId && e.2.request.node == p.node &&
    e.2.request.source == p.source

/-- The checks of `source_dispatch` on a new command. -/
def admitCommand (p : SourceRequest) (draw : Draw) (mem : State) (run : Run) :
    Except Failure Unit := do
  if !SourceControl.available run then throw ⟨"source_run_unavailable", 409⟩
  match SourceControl.resource run p.node with
  | none => throw ⟨"source_node_unavailable", 404⟩
  | some r =>
    if (r.identity.map Identity.id) != some p.instanceId then
      throw ⟨"source_instance_changed", 409⟩
    if !SourceControl.declared run p then throw ⟨"source_not_declared", 422⟩
    if mem.hasPending then throw ⟨"operation_in_progress", 409⟩
    if commandPending mem p then throw ⟨"source_command_pending", 409⟩
    if 8 ≤ pendingCommands mem || 256 ≤ mem.sourceCommands.size then
      throw ⟨"source_command_capacity", 429⟩
    match draw.statusError with
    | some code => throw { code }
    | none =>
      match SourceControl.capability draw.capability p with
      | some code => throw { code }
      | none => return ()

/-- `Engine::source_dispatch` for a command. -/
def dispatchSource (site : Site) (principal : ℕ) (p : SourceRequest) (draw : Draw) (s : Shared) :
    Except Failure Response × Shared :=
  if !SourceControl.validate (site.sourceSize p) p then
    (.error ⟨"source_request_invalid", 422⟩, s)
  else match s.mem.runs[p.runId]? with
    | none => (.error ⟨"not_found", 404⟩, s)
    | some run =>
      let key := site.sourceKey principal p.requestId
      match s.mem.sourceCommands[key]? with
      | some old =>
        if old.request != p then (.error ⟨"source_request_conflict", 409⟩, s)
        else (.ok (.command old), s)
      | none =>
        match admitCommand p draw s.mem run with
        | .error e => (.error e, s)
        | .ok () =>
          let c : SourceCommand :=
            { request := p, deadlineMs := (s.clock.now + 10000000000) / 1000000 }
          (answer draw.saveError (.command c),
            s.saveRequest
              { s.mem with sourceCommands := s.mem.sourceCommands.insert key c }
              draw.saveError)

/-- `Engine::dispatch`. -/
def dispatch (site : Site) (principal : ℕ) (request : Request) (draw : Draw) (s : Shared) :
    Except Failure Response × Shared :=
  if s.stopping then (.error ⟨"journal_unavailable", 503⟩, s)
  else match request with
    | .start p => dispatchLifecycle site principal (.start p) draw s
    | .operate p => dispatchLifecycle site principal (.operate p) draw s
    | .cancel id => dispatchCancel id draw s
    | .faultApply p => dispatchFault site principal (.apply p) draw s
    | .faultRemove p => dispatchFault site principal (.remove p) draw s
    | .terminalOpen p => dispatchTerminalOpen p draw s
    | .sourceCommand p => dispatchSource site principal p draw s

end Graphlab.Runtime
