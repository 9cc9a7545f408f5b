import Graphlab.Runtime.Requests
import Graphlab.Runtime.Effect

/-!
# Invariant and guards of the agent

`Inv` is the invariant that every party keeps.  `Guard` is what holds whenever the
constructor or the worker performs an operation; it is the interface between the
programs of `Graphlab.Runtime.Engine`, which are shown to meet it, and the properties
of the agent, which are derived from it without looking at programs again.

Memory and journal are two documents that both obey `Sound`: a crash makes the journal
the memory of the next process.

## Main definitions

* `Sound`, `Inv` — the invariant.
* `Planned`, `Armed`, `Activated`, `Barrier` — what the log of a job shows before it
  arms, and then up to where it releases the gates.
* `WriteGuard`, `CallGuard`, `Guard` — the guards.
-/

namespace Graphlab.Runtime

open Lib (Phase)

/-! ## The invariant -/

/-- No other live fault of the run has the edge and direction of `f`. -/
def Run.SoleAt (r : Run) (fid : FaultId) (f : Fault) : Prop :=
  ∀ ⦃i : FaultId⦄ ⦃g : Fault⦄, r.faults[i]? = some g → i ≠ fid → g.state.live = true →
    g.edge = f.edge → g.direction = f.direction → False

/-- Each edge and direction has at most one live fault. -/
def Run.Sole (r : Run) : Prop :=
  ∀ ⦃fid : FaultId⦄ ⦃f : Fault⦄, r.faults[fid]? = some f → f.state.live = true → r.SoleAt fid f

/-- What a queued job may rely on: admission checked it, and nothing that happens
while the job waits takes it away. -/
def Awaits (job : Job) (r : Run) : Prop :=
  match job.operation with
  | .start => r.state = .preparing ∧ ∀ fid : FaultId, r.faults[fid]? = none
  | .stop => r.state = .ready ∨ r.state = .stopped ∨ r.state = .reconciling
  | .faultApply => ∃ f, r.faults[job.faultId]? = some f ∧ f.state = .queued
  | _ => True

/-- A well-formed document, in a world and after a history. -/
structure Sound (world : World) (log : List Event) (d : State) : Prop where
  run_id : ∀ {id : RunId} {r : Run}, d.runs[id]? = some r → r.id = id
  fault_id : ∀ {id : RunId} {r : Run} {fid : FaultId} {f : Fault},
    d.runs[id]? = some r → r.faults[fid]? = some f → f.id = fid
  sole : ∀ {id : RunId} {r : Run}, d.runs[id]? = some r → r.Sole
  one_pending : ∀ {i j : JobId} {x y : Job}, d.jobs[i]? = some x → d.jobs[j]? = some y →
    x.pending = true → y.pending = true → i = j
  waiting : ∀ {j : JobId} {job : Job}, d.jobs[j]? = some job → job.state = .queued →
    ∃ r, d.runs[job.runId]? = some r ∧ Awaits job r
  /-- A live capture worker belongs to the current captures of its run. -/
  workers : ∀ {id : RunId} {x : String}, (id, x) ∈ world.workers →
    ∃ r, d.runs[id]? = some r ∧ ∃ c ∈ r.captures, c.id = x
  /-- No epoch was armed beyond the current one. -/
  epochs : ∀ {run : Run} {e : Option String}, .called (.captureControl run .arm) e ∈ log →
    ∃ r, d.runs[run.id]? = some r ∧ run.captureEpoch ≤ r.captureEpoch

/-- The invariant of the agent. -/
structure Inv (s : Shared) : Prop where
  mem : Sound s.world s.log s.mem
  journal : Sound s.world s.log s.journal
  /-- A document that lags in its jobs comes from a failed `save`. -/
  jobs : s.stopping = false → s.mem.jobs = s.journal.jobs

/-! ## Histories -/

/-- An arm call for the run is not yet followed by a commit: its workers may be live
while the committed coverage is the one from before. -/
def arming (id : RunId) : List Event → Bool
  | [] => false
  | .restarted :: _ => false
  | .taken _ :: _ => false
  | .committed _ _ _ :: _ => false
  | .called (.captureControl run .arm) _ :: log => run.id == id || arming id log
  | _ :: log => arming id log

/-- No run is being armed. -/
def Calm (log : List Event) : Prop := ∀ id, arming id log = false

/-- The job `j` was taken, and no other since. -/
def Current (j : JobId) (log : List Event) : Prop :=
  ∃ since before, log = since ++ .taken j :: before ∧
    ∀ e ∈ since, e ≠ .restarted ∧ ∀ i, e ≠ .taken i

/-- The launch intents of `run` are committed: the next epoch was opened, the captures
of that epoch were planned, and nothing came between. -/
def Planned (run : Run) (log : List Event) : Prop :=
  ∃ (plan last : Run) (b₁ a₁ b₂ a₂ : State) (before : List Event),
    log = .committed (.run run.id (.planned run.captures)) b₂ a₂ ::
      .called (.capturePlan plan) none :: .committed (.run run.id .nextEpoch) b₁ a₁ :: before ∧
    b₁.runs[run.id]? = some last ∧ run.captureEpoch = last.captureEpoch + 1 ∧
    (∃ r, a₁.runs[run.id]? = some r ∧ r.captureEpoch = run.captureEpoch) ∧
    (∃ r, a₂.runs[run.id]? = some r ∧ r.captures = run.captures ∧
      r.captureEpoch = run.captureEpoch) ∧
    ∀ c ∈ run.captures, c.epoch = run.captureEpoch

/-- A region about the run, or about jobs. -/
def Write.concerns (id : RunId) : Write → Bool
  | .run i _ => i == id
  | _ => true

/-- A call for the run, collection of health and samples apart: their failure is
recorded as data. -/
def Call.concerns (id : RunId) : Call → Bool
  | .capturePlan run => run.id == id
  | .captureControl run _ => run.id == id
  | .preflight _ => true
  | .prepare run _ => run.id == id
  | .remove run _ => run.id == id
  | .activate run => run.id == id
  | .gate run _ => run.id == id
  | .fault run _ _ => run.id == id
  | .sourceControl run _ _ => run.id == id
  | .stopSession _ _ => true
  | .adoptSession _ _ => true
  | .observe _ => false
  | .telemetry _ => false

/-- A failure that matters to the run, or the end of the job. -/
def Event.breaks (id : RunId) : Event → Bool
  | .restarted => true
  | .taken _ => true
  | .takeFailed _ => true
  | .committed _ _ _ => false
  | .commitFailed w => w.concerns id
  | .called c error => error.isSome && c.concerns id

/-- Some event with `p`, and no failure since that matters to the run. -/
def After (id : RunId) (p : Event → List Event → Prop) (log : List Event) : Prop :=
  ∃ since e before, log = since ++ e :: before ∧ (∀ x ∈ since, x.breaks id = false) ∧ p e before

/-- Within job `j` the captures of a new epoch were committed and then armed. -/
def Armed (j : JobId) (id : RunId) : List Event → Prop :=
  After id fun e before => ∃ run, e = .called (.captureControl run .arm) none ∧ run.id = id ∧
    Planned run before ∧ Current j before

/-- The workloads of the armed run were activated. -/
def Activated (j : JobId) (id : RunId) : List Event → Prop :=
  After id fun e before => ∃ run, e = .called (.activate run) none ∧ run.id = id ∧
    Armed j id before

/-- The barrier before the gates of a run open: within job `j`, in this order and with
no failure between, a new epoch and its captures were committed, the workers armed,
the workloads activated and the workers found recording. -/
def Barrier (j : JobId) (id : RunId) : List Event → Prop :=
  After id fun e before => ∃ run, e = .called (.captureControl run .status) none ∧ run.id = id ∧
    Activated j id before

/-! ## Guards -/

/-- The worker executes job `j` on the run `r`. -/
structure Owns (s : Shared) (j : JobId) (job : Job) (r : Run) : Prop where
  job_eq : s.mem.jobs[j]? = some job
  running : job.state = .running
  run_eq : s.mem.runs[job.runId]? = some r

/-- No job is being executed. -/
def Unowned (s : Shared) : Prop :=
  ∀ ⦃j : JobId⦄ ⦃job : Job⦄, s.mem.jobs[j]? = some job → job.state ≠ .running

/-- No capture worker of the run is live. -/
def NoWorkers (s : Shared) (id : RunId) : Prop := ∀ x, (id, x) ∉ s.world.workers

/-- Memory and journal agree on the capture coverage of the run. -/
def SameCoverage (s : Shared) (id : RunId) : Prop :=
  ∀ ⦃old : Run⦄, s.journal.runs[id]? = some old →
    ∃ r, s.mem.runs[id]? = some r ∧ r.captureCoverage = old.captureCoverage

/-- Nothing of the run is left: its resources are removed, its faults are gone, its
captures are closed. -/
structure Run.TornDown (r : Run) : Prop where
  resources : ∀ x ∈ r.resources, x.state = .removed
  faults : ∀ (fid : FaultId) (f : Fault), r.faults[fid]? = some f → f.state.live = false
  captures : r.recording = true → r.captureCoverage.isClosed = true

/-- The transitions the `state` lambda of `execute` makes. -/
def Moves (operation : Operation) (r : Run) : RunState → Prop
  | .converging => operation = .start ∧ (r.state = .preparing ∨ r.state = .armed)
  | .ready => operation = .start ∧ r.state = .converging ∨
      operation = .resume ∧ (r.state = .armed ∨ r.state = .stopped)
  | .compensating => operation = .start ∧
      (r.state = .preparing ∨ r.state = .armed ∨ r.state = .converging)
  | .stopped => operation = .stop
  | .destroying => operation = .destroy ∨ operation = .recover
  | .destroyed => (operation = .start ∧ r.state = .compensating ∨
      (operation = .destroy ∨ operation = .recover) ∧ r.state = .destroying) ∧ r.TornDown
  | _ => False

/-- The guard of a region about one run, `r` in memory. -/
def RunGuard (ph : Phase) (s : Shared) (id : RunId) (r : Run) : RunWrite → Prop
  | .state value => ∃ j job, Owns s j job r ∧ job.runId = id ∧ Moves job.operation r value
  | .removed index => ∀ x, r.resources[index]? = some x → (id, x.key) ∉ s.world.live
  | .nextEpoch => NoWorkers s id ∧ s.journal.runs[id]? = some r
  | .planned _ => NoWorkers s id ∧ s.journal.runs[id]? = some r ∧ r.captures = []
  | .armed _ => (∃ j job, Owns s j job r ∧ job.runId = id) ∧
      (r.state = .preparing ∨ r.state = .stopped) ∧
      ∃ run before, s.log = .called (.captureControl run .arm) none :: before ∧
        run.id = id ∧ run.captureEpoch = r.captureEpoch ∧ Planned run before
  | .closed coverage _ => NoWorkers s id ∧ r.captureCoverage = coverage
  | .monitorFailed _ _ => Unowned s ∧ r.state = .ready
  | .faultCleared fid => (∃ j job, Owns s j job r ∧ job.runId = id) ∧
      (id, fid) ∉ s.world.installed
  | .faultExpiring fid => ∃ f, r.faults[fid]? = some f ∧ f.state = .active
  | .faultExpired fid => (id, fid) ∉ s.world.installed ∧
      ∃ f, r.faults[fid]? = some f ∧ f.state = .removing
  | .faultFailure fid _ => r.state ≠ .destroyed ∧
      (∀ (j : JobId) (job : Job), s.mem.jobs[j]? = some job → job.state = .running →
        job.operation = .resume) ∧
      ∃ f, r.faults[fid]? = some f ∧
        (f.state ≠ .queued ∨ s.mem.hasPending = false) ∧ r.SoleAt fid f
  | .adopting => r.state ≠ .destroyed ∧ s.mem.hasPending = false
  | .adopted _ _ => ph = .construct ∧ r.state ≠ .destroyed ∧ s.mem.hasPending = false
  | .faultRecovered fid => (id, fid) ∉ s.world.installed ∧ s.mem.hasPending = false
  | _ => True

/-- What holds when an operation completes on the snapshot `last`. -/
structure Completes (operation : Operation) (last : Run) : Prop where
  coverage : last.recording = true →
    if last.state = .ready then last.captureCoverage = .armed
    else last.captureCoverage.isClosed = true
  gone : operation = .destroy ∨ operation = .recover → last.state = .destroyed ∧ last.TornDown

/-- What holds when a failed job is recorded: it is the committed running job, and
nothing else is pending. -/
structure Fails (s : Shared) (j : JobId) (job : Job) : Prop where
  mem : s.mem.jobs[j]? = some job
  journal : ∃ old, s.journal.jobs[j]? = some old ∧ old.state = .running ∧ old.runId = job.runId
  alone : ∀ (i : JobId) (x : Job), s.mem.jobs[i]? = some x → x.pending = true → i = j
  coverage : ∀ id, id ≠ job.runId → SameCoverage s id
  window : ∀ id, arming id s.log = true →
    id = job.runId ∧ ∃ r, s.mem.runs[id]? = some r ∧ r.recording = true

/-- The guard of a region. -/
def WriteGuard (ph : Phase) (s : Shared) : Write → Prop
  | .run id w => ∀ r, s.mem.runs[id]? = some r → RunGuard ph s id r w
  | .finished j last _ => ∃ job, Owns s j job last ∧ job.runId = last.id ∧
      Completes job.operation last
  | .startCancelled j => ∃ job r, Owns s j job r ∧ job.operation = .start ∧
      r.state = .destroyed ∧ r.TornDown
  | .failed j _ => ∃ job, Fails s j job
  | .faultBegin j => ∃ job r, Owns s j job r ∧
      (job.operation = .faultApply ∧ (∃ f, r.faults[job.faultId]? = some f ∧ f.state = .queued) ∨
        job.operation = .faultRemove)
  | .faultDone j cancel _ => ∃ job r f, Owns s j job r ∧ r.faults[job.faultId]? = some f ∧
      (job.operation = .faultApply ∧ f.state = .applying ∧
          (cancel = true → (job.runId, job.faultId) ∉ s.world.installed) ∨
        job.operation = .faultRemove ∧ cancel = false ∧ f.state = .removing ∧
          (job.runId, job.faultId) ∉ s.world.installed)
  | _ => True

/-- The run has an entry for the resource that is not marked removed. -/
def Holds (d : State) (id : RunId) (key : String) : Prop :=
  ∃ r, d.runs[id]? = some r ∧ ∃ x ∈ r.resources, x.key = key ∧ x.state ≠ .removed

/-- The fault is recorded as being applied. -/
def Applying (d : State) (id : RunId) (fid : FaultId) : Prop :=
  ∃ r f, d.runs[id]? = some r ∧ r.faults[fid]? = some f ∧ f.state = .applying

/-- The guard of a call. -/
def CallGuard (s : Shared) : Call → Prop
  | .prepare run resource => Holds s.mem run.id resource.key ∧ Holds s.journal run.id resource.key
  | .remove run resource => ∃ r i, s.journal.runs[run.id]? = some r ∧
      r.resources[i]? = some resource ∧ resource.state ≠ .removed ∧
      ∀ (k : ℕ) (x : Resource), i < k → r.resources[k]? = some x → x.state = .removed
  | .captureControl run .arm => s.mem.runs[run.id]? = some run ∧
      s.journal.runs[run.id]? = some run ∧ run.recording = true ∧ Planned run s.log ∧
      ∀ (old : Run) (e : Option String), .called (.captureControl old .arm) e ∈ s.log → old.id = run.id →
        old.captureEpoch < run.captureEpoch
  | .gate run .release => ∃ j job, Owns s j job run ∧ job.runId = run.id ∧
      (run.state = .converging ∨ run.state = .armed ∨ run.state = .stopped) ∧
      (run.recording = true → Barrier j run.id s.log)
  | .gate run .renew => run.state = .ready
  | .fault run f .apply => Applying s.mem run.id f.id ∧ Applying s.journal run.id f.id
  | _ => True

/-- The regions that end without `save`. -/
def Write.unsaved : Write → Bool
  | .run _ (.health _ _) => true
  | .run _ (.adoptionObserved _) => true
  | .run _ .sessionLost => true
  | .run _ (.faultRecovered _) => true
  | _ => false

/-- A commit settles the coverage of a run that is being armed. -/
def Settles (id : RunId) : Write → Prop
  | .run i (.armed _) => i = id
  | .failed _ _ => True
  | _ => False

/-- What holds between two iterations of the worker. -/
structure Loop (s : Shared) : Prop where
  unowned : Unowned s
  calm : Calm s.log
  coverage : ∀ id, SameCoverage s id

/-- What holds when an operation is performed. -/
def Guard (ph : Phase) (s : Shared) : Op → Prop
  | .take => ph = .body ∧ Loop s
  | .update w => WriteGuard ph s w ∧ w.unsaved = true
  | .commit w => WriteGuard ph s w ∧ (∀ id, arming id s.log = true → Settles id w) ∧
      ((∀ id, SameCoverage s id) ∨ ∃ j error, w = .failed j error)
  | .call c => CallGuard s c
  | _ => True

end Graphlab.Runtime
