import Graphlab.Runtime.Machine
import Graphlab.Runtime.SourceControl

/-!
# The engine's programs

The constructor and the worker of `Engine`, function by function, as programs over
the atomic operations of `Graphlab.Runtime.Machine`.  A C++ exception is an exception
of the program; a loop over a JSON collection is a recursion over its entries.

An entry that is missing from the document makes `get` on a JSON null throw; the same
exception is raised here, though no run of the system gets there.

## Main definitions

* `execute`, `arm`, `cleanup`, `closeCaptures` — jobs.
* `m5Execute`, `m5Clear`, `m5FaultFailure`, `m5Monitor`, `m5Recover` — faults.
* `monitor`, `sourceWork`, `work` — one iteration of the worker.
* `construct` — the constructor's recovery.
-/

namespace Graphlab.Runtime

open Act

/-- `get` on a JSON null. -/
def typeError : Failure := { code := "type_error" }

/-- A run of the document. -/
def readRun (id : RunId) : Act Run := do
  let s ← read
  match s.runs[id]? with
  | some run => pure run
  | none => throw typeError

/-- The `snapshot` lambda of `execute`. -/
def snapshot (job : JobId) : Act (Job × Run) := do
  let s ← read
  match s.jobs[job]? with
  | none => throw typeError
  | some j =>
    match s.runs[j.runId]? with
    | none => throw typeError
    | some run => pure (j, run)

/-! ## Faults -/

/-- `Engine::m5_fault_failure`. -/
def m5FaultFailure (id : RunId) (fid : FaultId) (error : String) : Act Unit := do
  let s ← commit (.run id (.faultFailure fid error))
  let failure ← match s.runs[id]? with
    | none => pure ""
    | some run => tryCatch (do call' (.gate run .quiesce); pure "") fun e => pure e.code
  commit' (.run id (.faultQuiescence fid failure))

/-- `Engine::m5_clear`, over the faults of its snapshot. -/
def clearFaults (run : Run) : List (FaultId × Fault) → Act Unit
  | [] => pure ()
  | (fid, f) :: rest => do
      when f.state.live do
        call' (.fault run f .remove)
        commit' (.run run.id (.faultCleared fid))
      clearFaults run rest

def m5Clear (id : RunId) : Act Unit := do
  let run ← readRun id
  clearFaults run run.faults.toList

/-- `Engine::m5_execute`. -/
def m5Execute (job : JobId) : Act Unit := do
  let s ← commit (.faultBegin job)
  match s.jobs[job]? with
  | none => throw typeError
  | some j =>
    -- A cancelled application and the removal of a fault that is gone end here.
    if j.state != .running then pure ()
    else match s.runs[j.runId]? with
      | none => throw typeError
      | some run =>
        match run.faults[j.faultId]? with
        | none => throw typeError
        | some f =>
          let reply ← call
            (.fault run f (if j.operation == .faultApply then .apply else .remove))
          let s ← read
          let cancel := j.operation == .faultApply &&
            (s.jobs[job]?.map Job.cancelRequested).getD false
          when cancel (call' (.fault run f .remove))
          commit' (.faultDone job cancel reply.observed)

/-- `m5_monitor`: remove the expired faults of a snapshot.  The answer is the local
`run["state"]`, which a failed removal sets to `reconciling`. -/
def expireFaults (id : RunId) (run : Run) (state : RunState) :
    List (FaultId × Fault) → Act RunState
  | [] => pure state
  | (fid, f) :: rest => do
      let clock ← clock
      if f.state == .active && f.expiresMonotonicNs.getD 0 ≤ clock.now then
        commit' (.run id (.faultExpiring fid))
        let failed ← tryCatch
          (do
            call' (.fault run f .remove)
            commit' (.run id (.faultExpired fid))
            pure false)
          fun e => do
            m5FaultFailure id fid e.code
            pure true
        expireFaults id run (if failed then .reconciling else state) rest
      else expireFaults id run state rest

/-- `began - healthMonotonicNs >= 5000000000ull`, in 64-bit arithmetic. -/
def healthDue (began since : ℕ) : Bool := 5000000000 ≤ (began + 2 ^ 64 - since) % 2 ^ 64

/-- `m5_monitor`: health every five seconds, and interface samples. -/
def collect (id : RunId) (run : Run) : Act Unit := do
  let began ← clock
  when (healthDue began.now run.healthMonotonicNs) do
    let health ← tryCatch (do let reply ← call (.observe run); pure reply.health) fun e =>
      pure { error := some e.code }
    update (.run id (.health run health))
  let gaps ← tryCatch (do let reply ← call (.telemetry run); pure reply.gaps) fun e =>
    pure ((run.resources.filter fun r => r.kind == .edge).map fun r => (r.logical, e.code))
  commit' (.run id (.samples began.now gaps))

/-- `m5_monitor` on one run of its snapshot. -/
def monitorRun (id : RunId) (run : Run) : Act Unit :=
  if run.state == .destroyed then pure ()
  else do
    let state ← expireFaults id run run.state run.faults.toList
    if (state != .ready && state != .stopped) || run.observationProfile == .minimal then pure ()
    else collect id run

def monitorRuns : List (RunId × Run) → Act Unit
  | [] => pure ()
  | (id, run) :: rest => do
      monitorRun id run
      monitorRuns rest

/-- `Engine::m5_monitor`. -/
def m5Monitor : Act Unit := do
  let s ← read
  monitorRuns s.runs.toList

/-- `m5_recover` on a fault it has to remove. -/
def recoverFault (id : RunId) (fid : FaultId) (f : Fault) : Act Unit := do
  let run ← readRun id
  tryCatch
    (do
      call' (.fault run f .remove)
      update (.run id (.faultRecovered fid)))
    fun e => m5FaultFailure id fid e.code

/-- `m5_recover` on the faults of one run: what is not known to be active and unexpired
in this boot is removed. -/
def recoverFaults (id : RunId) : List (FaultId × Fault) → Act Unit
  | [] => pure ()
  | (fid, f) :: rest => do
      when f.state.live do
        let clock ← clock
        when (f.bootId != clock.boot || f.state != .active ||
            f.expiresMonotonicNs.getD 0 ≤ clock.now) (recoverFault id fid f)
      recoverFaults id rest

def recoverRuns : List RunId → Act Unit
  | [] => pure ()
  | id :: rest => do
      let run ← readRun id
      when (run.state != .destroyed) (recoverFaults id run.faults.toList)
      recoverRuns rest

/-- `Engine::m5_recover`. -/
def m5Recover : Act Unit := do
  let s ← read
  recoverRuns s.runs.keys
  commit' .flush

/-! ## Jobs -/

/-- `Engine::close_captures`. -/
def closeCaptures (id : RunId) : Act Unit := do
  let run ← readRun id
  when run.recording do
    let reply ← call (.captureControl run .stop)
    commit' (.run id (.closed run.captureCoverage reply.observations))

def stopSessions (generation : ℕ) : List Session → Act Unit
  | [] => pure ()
  | s :: rest => do
      call' (.stopSession s generation)
      stopSessions generation rest

/-- The removal loop of `cleanup`, from entry `index - 1` down. -/
def removeResources (run : Run) : ℕ → Act Unit
  | 0 => pure ()
  | index + 1 => do
      match run.resources[index]? with
      | none => pure ()
      | some resource =>
        if resource.state != .removed then
          call' (.remove run resource)
          commit' (.run run.id (.removed index))
      removeResources run index

/-- `Engine::cleanup`. -/
def cleanup (id : RunId) : Act Unit := do
  m5Clear id
  closeCaptures id
  let run ← readRun id
  stopSessions run.controllerGeneration run.sessions
  removeResources run run.resources.length

/-- The `arm` lambda of `execute`; the answer is the snapshot it leaves in `run`. -/
def arm (job : JobId) (recording : Bool) (run : Run) : Act Run :=
  if !recording then pure run
  else do
    let (_, run) ← snapshot job
    when (!run.captures.isEmpty) (call' (.captureControl run .stop))
    commit' (.run run.id .nextEpoch)
    let (_, run) ← snapshot job
    let reply ← call (.capturePlan run)
    commit' (.run run.id (.planned (capturePlan run reply.captureIds)))
    let (_, run) ← snapshot job
    let reply ← call (.captureControl run .arm)
    commit' (.run run.id (.armed reply.observations))
    let (_, run) ← snapshot job
    pure run

/-- The resource loop of a start; the answer is `cancel`. -/
def prepareResources (job : JobId) (id : RunId) : Bool → List Resource → Act Bool
  | cancel, [] => pure cancel
  | true, _ :: _ => pure true
  | false, resource :: rest => do
      commit' (.run id (.intent resource))
      let (_, run) ← snapshot job
      let reply ← call (.prepare run { resource with state := .intent })
      commit' (.run id (.prepared reply.identity))
      let cancel ← cancelled job
      prepareResources job id cancel rest

/-- A start from the barrier to convergence, unless cancelled; the answer is `cancel`. -/
def converge (job : JobId) (recording : Bool) : Bool → Act Bool
  | true => pure true
  | false => do
      let (_, run) ← snapshot job
      let run ← arm job recording run
      commit' (.run run.id (.state .converging))
      call' (.activate run)
      cancelled job

/-- A start's release of the gates, unless cancelled; the answer is `cancel`. -/
def releaseGates (job : JobId) (recording : Bool) : Bool → Act Bool
  | true => pure true
  | false => do
      let (_, run) ← snapshot job
      when recording (call' (.captureControl run .status))
      call' (.gate run .release)
      cancelled job

/-- The end of a start that was cancelled. -/
def compensate (job : JobId) (id : RunId) : Act Unit := do
  commit' (.run id (.state .compensating))
  let (_, run) ← snapshot job
  let _ ← succeeds (call' (.gate run .quiesce))
  cleanup id
  commit' (.run id (.state .destroyed))
  commit' (.startCancelled job)

/-- The completion of `execute`. -/
def complete (job : JobId) : Act Unit := do
  let (_, run) ← snapshot job
  let reply ← call (.observe run)
  commit' (.finished job run reply.health)

/-- `execute` for a start. -/
def executeStart (job : JobId) (run : Run) : Act Unit := do
  when run.recording (call' (.capturePlan run))
  call' (.preflight run.topology)
  let cancel ← cancelled job
  let cancel ← prepareResources job run.id cancel (resources run)
  let cancel ← converge job run.recording cancel
  let cancel ← releaseGates job run.recording cancel
  if cancel then compensate job run.id
  else do
    commit' (.run run.id (.state .ready))
    complete job

/-- `execute` for a stop. -/
def executeStop (job : JobId) (run : Run) : Act Unit := do
  call' (.gate run .quiesce)
  when run.recording (closeCaptures run.id)
  commit' (.run run.id (.state .stopped))
  complete job

def reconciliationRequired : Failure := { code := "fault_reconciliation_required" }

/-- `execute` for a resume. -/
def executeResume (job : JobId) (recording : Bool) : Act Unit := do
  m5Monitor
  let (_, run) ← snapshot job
  when (run.state != .stopped) (throw reconciliationRequired)
  let run ← arm job recording run
  call' (.activate run)
  when recording (call' (.captureControl run .status))
  m5Monitor
  let (_, run) ← snapshot job
  when (run.state == .reconciling) (throw reconciliationRequired)
  call' (.gate run .release)
  commit' (.run run.id (.state .ready))
  complete job

/-- `execute` for a destroy or a recover. -/
def executeDestroy (job : JobId) (run : Run) : Act Unit := do
  commit' (.run run.id (.state .destroying))
  let _ ← succeeds (call' (.gate run .quiesce))
  cleanup run.id
  commit' (.run run.id (.state .destroyed))
  complete job

/-- `Engine::execute`. -/
def execute (job : JobId) : Act Unit := do
  let (j, run) ← snapshot job
  match j.operation with
  | .faultApply => m5Execute job
  | .faultRemove => m5Execute job
  | .start => executeStart job run
  | .stop => executeStop job run
  | .resume => executeResume job run.recording
  | .destroy => executeDestroy job run
  | .recover => executeDestroy job run

/-- The failure handler of `work`. -/
def handleFailure (job : JobId) (e : Failure) : Act Unit := do
  let s ← read
  match s.jobs[job]?.bind fun j => s.runs[j.runId]? with
  | none => pure ()
  | some run =>
    let _ ← succeeds (call' (.gate run .quiesce))
    commit' (.failed job e.code)

/-! ## The worker -/

/-- The runs `monitor` watches. -/
def watched (run : Run) : Bool := run.state == .ready && (run.recording || run.hasVm)

/-- `monitor`: what the capture workers report, where there are any. -/
def captureStatus (run : Run) : Act (List Observation) :=
  if run.recording then do
    let reply ← call (.captureControl run .status)
    pure reply.observations
  else pure []

/-- `monitor` on the run it watches. -/
def watch (run : Run) : Act Unit :=
  tryCatch
    (do
      let status ← captureStatus run
      call' (.gate run .renew)
      commit' (.run run.id (.healthy status)))
    fun e => do
      let held ← succeeds (call' (.gate run .quiesce))
      commit' (.run run.id (.monitorFailed e.code held))

/-- `Engine::monitor`. -/
def monitor : Act Unit := do
  tryCatch m5Monitor fun e => commit' (.telemetryError e.code)
  let s ← read
  match s.runs.toList.find? fun e => watched e.2 with
  | none => pure ()
  | some (_, run) => watch run

/-- `error.find("timeout") != npos`. -/
def mentionsTimeout (error : String) : Bool :=
  error.toList.tails.any fun t => "timeout".toList.isPrefixOf t

/-- `error.resize(256)` for an error that is longer. -/
def truncated (error : String) : String := String.ofList (error.toList.take 256)

/-- `source_work` on the command it picked: check, send, check the answer. -/
def sendCommand (s : State) (c : SourceCommand) : Act Unit := do
  match s.runs[c.request.runId]? with
  | none => throw typeError
  | some run =>
    when (!SourceControl.available run) (throw { code := "source_run_unavailable" })
    match SourceControl.resource run c.request.node with
    | none => throw { code := "source_node_unavailable" }
    | some r =>
      when ((r.identity.map Identity.id) != some c.request.instanceId)
        (throw { code := "source_instance_changed" })
      let status ← call (.sourceControl run r none)
      match SourceControl.capability status.capability c.request with
      | some code => throw { code }
      | none =>
        let command := SourceControl.wire c.request
        let reply ← call (.sourceControl run r (some command))
        when (reply.acknowledgement != { command, outcome := "acknowledged" })
          (throw { code := "source_acknowledgement_invalid" })

/-- The outcome and the error a command that threw is recorded with. -/
def failedOutcome (e : Failure) : SourceOutcome × String :=
  (if mentionsTimeout e.code then .timedOut else .failed, truncated e.code)

/-- The outcome and the error a command is recorded with. -/
def commandOutcome (s : State) (c : SourceCommand) (now : Clock) : Act (SourceOutcome × String) :=
  if c.deadlineMs ≤ now.now / 1000000 then pure (.timedOut, "source_queue_deadline")
  else tryCatch (do sendCommand s c; pure (.acknowledged, "")) fun e => pure (failedOutcome e)

/-- `Engine::source_work`. -/
def sourceWork : Act Unit := do
  let s ← read
  match s.sourceCommands.toList.find? fun e => e.2.outcome == .requested with
  | none => pure ()
  | some (key, c) =>
    let now ← clock
    let (outcome, error) ← commandOutcome s c now
    commit' (.sourceDone key outcome error)

/-- One iteration of `Engine::work`; `false` leaves the loop. -/
def work : Act Bool := do
  match ← take with
  | .stop => pure false
  | .none =>
    monitor
    sourceWork
    pure true
  | .job job =>
    tryCatch (execute job) fun e => handleFailure job e
    pure true

/-! ## The constructor -/

def adoptSessions (id : RunId) (generation : ℕ) : List Session → Act Unit
  | [] => pure ()
  | s :: rest => do
      let adopted ← succeeds (call' (.adoptSession s generation))
      when (!adopted) (update (.run id .sessionLost))
      adoptSessions id generation rest

/-- The constructor takes over what a run left outside the agent. -/
def takeOver (id : RunId) (wasClosed : Bool) : Act Unit := do
  let run ← readRun id
  when (!wasClosed) do
    let reply ← call (.captureControl run .adopt)
    update (.run id (.adoptionObserved reply.observations))
  let run ← readRun id
  call' (.gate run .quiesce)
  adoptSessions id run.controllerGeneration run.sessions

/-- The constructor's loop body for one run. -/
def adoptRun (id : RunId) : Act Unit := do
  let run ← readRun id
  if run.state == .destroyed || (!run.recording && !run.hasVm && run.sessions.isEmpty) then
    pure ()
  else do
    let wasStopped := run.state == .stopped
    let wasClosed := run.captureCoverage.isClosed
    commit' (.run id .adopting)
    let error ← tryCatch (do takeOver id wasClosed; pure none) fun e => pure (some e.code)
    match error with
    | none => commit' (.run id (.adopted wasStopped wasClosed))
    | some code => commit' (.run id (.adoptionFailed code))

def adoptRuns : List RunId → Act Unit
  | [] => pure ()
  | id :: rest => do
      adoptRun id
      adoptRuns rest

/-- The recovery part of `Engine::Engine`. -/
def construct : Act Unit := do
  commit' .interrupted
  let s ← read
  adoptRuns s.runs.keys
  m5Recover

end Graphlab.Runtime
