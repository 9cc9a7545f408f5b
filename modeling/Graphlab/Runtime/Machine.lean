import Graphlab.Lib.Supervised
import Graphlab.Runtime.Write

/-!
# What the engine's threads share, and the atomic operations on it

`Shared` is everything a step of the agent can touch: the document in memory, the
committed journal, the `stopping_` flag, the clock, and the world the backend acts
on.  The world is what effects are about: live resources, live
capture workers and installed faults.  Two histories are carried along: `log`, the
operations of the constructor and the worker, newest first, and `admitted`, the jobs
whose admission was committed.

The worker's atomic operations are `Op`: a lock region, a lock region with `save`, a
backend call, a clock reading.  Backend calls run outside the lock.  Each takes its
result from an `Outcome`, so a backend that succeeds, fails before its effect or
fails after it is a choice of the surroundings.

`save` that throws leaves the journal as it was, memory ahead of it, and `stopping_`
set.

## Main definitions

* `Call`, `Reply`, `Outcome`, `World` — the backend.
* `Event`, `Shared` — the state.
* `Op`, `Ans`, `perform` — the operations.
* `Act` — programs of the engine.
-/

namespace Graphlab.Runtime

open Std (TreeMap)

/-- A thrown `Failure`. -/
structure Failure where
  code : String
  status : ℕ := 422
  deriving DecidableEq, Repr, Inhabited

/-! ## The backend -/

inductive CaptureOperation
  | arm | stop | status | adopt
  deriving DecidableEq, Repr, Inhabited

inductive GateAction
  | release | renew | quiesce
  deriving DecidableEq, Repr, Inhabited

inductive FaultAction
  | apply | remove
  deriving DecidableEq, Repr, Inhabited

/-- A backend or terminal call, with the snapshots it is given. -/
inductive Call
  | capturePlan (run : Run)
  | captureControl (run : Run) (operation : CaptureOperation)
  | preflight (topology : Topology)
  | prepare (run : Run) (resource : Resource)
  | remove (run : Run) (resource : Resource)
  | activate (run : Run)
  | gate (run : Run) (action : GateAction)
  | observe (run : Run)
  | telemetry (run : Run)
  | fault (run : Run) (fault : Fault) (action : FaultAction)
  | stopSession (session : Session) (generation : ℕ)
  | adoptSession (session : Session) (generation : ℕ)
  | sourceControl (run : Run) (resource : Resource) (command : Option SourceWire)

/-- The data a successful call can return. -/
structure Reply where
  identity : Identity := {}
  captureIds : List String := []
  observations : List Observation := []
  health : Health := {}
  gaps : List (String × String) := []
  observed : String := ""
  capability : Capability := {}
  acknowledgement : Acknowledgement := {}
  deriving Inhabited

/-- What the surroundings choose for one operation. -/
structure Outcome where
  /-- The exception of a call or of `save`, if it throws. -/
  error : Option String := none
  /-- Whether a call that throws has had its effect all the same. -/
  effect : Bool := false
  /-- The capture workers a throwing `arm` or `stop` got to. -/
  touched : Finset String := ∅
  /-- The telemetry database throws after this many gap events. -/
  abort : Option ℕ := none
  /-- Time that passes before the operation. -/
  elapsed : ℕ := 0
  reply : Reply := {}

/-- What a call returns or throws. -/
def Outcome.answer (out : Outcome) : Except Failure Reply :=
  match out.error with
  | none => .ok out.reply
  | some code => .error { code }

variable {out : Outcome}

theorem Outcome.answer_ok {reply : Reply} :
    out.answer = .ok reply ↔ out.error = none ∧ out.reply = reply := by
  unfold answer
  split <;> simp [*]

theorem Outcome.answer_error {e : Failure} :
    out.answer = .error e ↔ ∃ code, out.error = some code ∧ { code } = e := by
  unfold answer
  split <;> simp [*]

/-- Resources, capture workers and faults that exist outside the agent, by run. -/
structure World where
  live : Finset (RunId × String) := ∅
  workers : Finset (RunId × String) := ∅
  installed : Finset (RunId × FaultId) := ∅

/-- The workers that the descriptors of `run` name. -/
def Run.captureWorkers (run : Run) : Finset (RunId × String) :=
  (run.captures.map fun c => (run.id, c.id)).toFinset

/-- The effect of a call.  `arm` starts the workers of the current captures and `stop`
ends them; one that throws may have got to any of them. -/
def Call.effect (out : Outcome) (w : World) : Call → World
  | .prepare run resource =>
    if out.error.isNone || out.effect then
      { w with live := insert (run.id, resource.key) w.live }
    else w
  | .remove run resource =>
    if out.error.isNone || out.effect then
      { w with live := w.live.erase (run.id, resource.key) }
    else w
  | .captureControl run .arm =>
    if out.error.isNone then { w with workers := w.workers ∪ run.captureWorkers }
    else { w with workers := w.workers ∪ run.captureWorkers.filter fun p => p.2 ∈ out.touched }
  | .captureControl run .stop =>
    if out.error.isNone then { w with workers := w.workers \ run.captureWorkers }
    else { w with workers := w.workers \ run.captureWorkers.filter fun p => p.2 ∈ out.touched }
  | .fault run f .apply =>
    if out.error.isNone || out.effect then
      { w with installed := insert (run.id, f.id) w.installed }
    else w
  | .fault run f .remove =>
    if out.error.isNone || out.effect then
      { w with installed := w.installed.erase (run.id, f.id) }
    else w
  | _ => w

/-- Only `arm` starts workers, and only those of its captures. -/
theorem Call.effect_workers {c : Call} {w : World} {p : RunId × String}
    (h : p ∈ (c.effect out w).workers) :
    p ∈ w.workers ∨ ∃ run, c = .captureControl run .arm ∧ p ∈ run.captureWorkers := by
  cases c with
  | captureControl run operation =>
    cases operation with
    | arm =>
      by_cases he : out.error.isNone
      · simp only [effect, he, if_true, Finset.mem_union] at h
        exact h.imp_right fun h => ⟨run, rfl, h⟩
      · simp only [effect, he, Bool.false_eq_true, if_false, Finset.mem_union,
          Finset.mem_filter] at h
        exact h.imp_right fun h => ⟨run, rfl, h.1⟩
    | stop =>
      by_cases he : out.error.isNone
      · simp only [effect, he, if_true, Finset.mem_sdiff] at h
        exact .inl h.1
      · simp only [effect, he, Bool.false_eq_true, if_false, Finset.mem_sdiff] at h
        exact .inl h.1
    | status => exact .inl h
    | adopt => exact .inl h
  | prepare => simp only [effect] at h; split at h <;> exact .inl h
  | remove => simp only [effect] at h; split at h <;> exact .inl h
  | fault run f action =>
    cases action <;> simp only [effect] at h <;> split at h <;> exact .inl h
  | _ => exact .inl h

/-- `capture::plan`: one descriptor for each prepared edge, for the run's epoch. -/
def capturePlan (run : Run) (ids : List String) : List Capture :=
  (run.resources.filter fun r => r.kind == .edge).mapIdx fun i r =>
    { id := ids.getD i "", edge := r.logical, epoch := run.captureEpoch }

/-! ## The shared state -/

/-- An operation of the constructor or the worker. -/
inductive Event
  /-- A process started. -/
  | restarted
  /-- The worker took a queued job and committed that it is running. -/
  | taken (job : JobId)
  | takeFailed (job : JobId)
  /-- A lock region was committed: the journal before and after. -/
  | committed (write : Write) (before after : State)
  | commitFailed (write : Write)
  /-- A call returned, or threw. -/
  | called (call : Call) (error : Option String)

/-- Everything a step of the agent can touch. -/
structure Shared where
  /-- `state_`. -/
  mem : State := {}
  /-- The committed document. -/
  journal : State := {}
  /-- `stopping_`. -/
  stopping : Bool := false
  clock : Clock := {}
  /-- The clock when the running process started. -/
  restartedAt : ℕ := 0
  world : World := {}
  log : List Event := []
  admitted : List JobId := []

namespace Shared

/-- Let time pass. -/
def tick (s : Shared) (elapsed : ℕ) : Shared :=
  { s with clock := { s.clock with now := s.clock.now + elapsed } }

/-- A lock region that ends in `save`. -/
def commit (s : Shared) (w : Write) (error : Option String) : Except Failure State × Shared :=
  let mem := w.apply s.clock s.mem
  match error with
  | none => (.ok mem, { s with mem, journal := mem, log := .committed w s.journal mem :: s.log })
  | some code =>
    (.error { code }, { s with mem, stopping := true, log := .commitFailed w :: s.log })

/-- A backend call. -/
def call (s : Shared) (c : Call) (out : Outcome) : Except Failure Reply × Shared :=
  (out.answer, { s with world := c.effect out s.world, log := .called c out.error :: s.log })

/-- The first queued job in key order. -/
def queuedJob (s : Shared) : Option JobId :=
  (s.mem.jobs.toList.find? fun e => e.2.state == .queued).map Prod.fst

theorem queuedJob_some {s : Shared} {j : JobId} (h : s.queuedJob = some j) :
    ∃ job, s.mem.jobs[j]? = some job ∧ job.state = .queued := by
  simp only [queuedJob, Option.map_eq_some_iff] at h
  obtain ⟨⟨_, job⟩, hfind, rfl⟩ := h
  exact ⟨job, TreeMap.mem_toList_iff_getElem?_eq_some.1 (List.mem_of_find?_eq_some hfind),
    by simpa using List.find?_some hfind⟩

theorem queuedJob_none {s : Shared} (h : s.queuedJob = none) {j : JobId} {job : Job}
    (hj : s.mem.jobs[j]? = some job) : job.state ≠ .queued := by
  simp only [queuedJob, Option.map_eq_none_iff, List.find?_eq_none] at h
  simpa using h (j, job) (TreeMap.mem_toList_iff_getElem?_eq_some.2 hj)

end Shared

/-! ## Operations -/

/-- What `work` found under the lock. -/
inductive Taken
  | stop
  | none
  | job (id : JobId)
  deriving DecidableEq, Repr, Inhabited

inductive Op
  /-- Copy `state_`. -/
  | read
  /-- The `cancelled` lambda of `execute`. -/
  | cancelled (job : JobId)
  /-- The head of `work`: pick a queued job, mark it running, save. -/
  | take
  /-- A lock region without `save`. -/
  | update (write : Write)
  /-- A lock region that ends in `save`. -/
  | commit (write : Write)
  | call (call : Call)
  | clock

/-- The answers. -/
def Ans : Op → Type
  | .read => State
  | .cancelled _ => Except Failure Bool
  | .take => Except Failure Taken
  | .update _ => Unit
  | .commit _ => Except Failure State
  | .call _ => Except Failure Reply
  | .clock => Clock

/-- `take` after the clock has moved. -/
def performTake (error : Option String) (s : Shared) : Except Failure Taken × Shared :=
  if s.stopping then (.ok .stop, s)
  else match s.queuedJob with
    | none => (.ok .none, s)
    | some job =>
      let mem := s.mem.modifyJob job fun j => { j with state := .running }
      match error with
      | none => (.ok (.job job), { s with mem, journal := mem, log := .taken job :: s.log })
      | some code =>
        (.error { code }, { s with mem, stopping := true, log := .takeFailed job :: s.log })

/-- `cancelled` after the clock has moved. -/
def performCancelled (job : JobId) (s : Shared) : Except Failure Bool :=
  if s.stopping then .error { code := "agent_stopping" }
  else .ok ((s.mem.jobs[job]?.map Job.cancelRequested).getD false)

/-- A lock region with `save`, or one that the telemetry database makes throw first. -/
def performCommit (w : Write) (out : Outcome) (s : Shared) : Except Failure State × Shared :=
  match out.abort.bind fun n => w.aborted n with
  | some cut => (.error { code := "telemetry_write" }, { s with mem := cut.apply s.clock s.mem })
  | none => s.commit w out.error

/-- What an operation answers and does. -/
def perform (o : Op) (out : Outcome) (s : Shared) : Ans o × Shared :=
  let s := s.tick out.elapsed
  match o with
  | .read => (s.mem, s)
  | .cancelled job => (performCancelled job s, s)
  | .take => performTake out.error s
  | .update w => ((), { s with mem := w.apply s.clock s.mem })
  | .commit w => performCommit w out s
  | .call c => s.call c out
  | .clock => (s.clock, s)

/-- Programs of the engine. -/
abbrev Act := Lib.Prog Op Ans Failure

namespace Act

def read : Act State := .perform .read fun s => .ok s
def cancelled (job : JobId) : Act Bool := .perform (.cancelled job) id
def take : Act Taken := .perform .take id
def update (w : Write) : Act Unit := .perform (.update w) fun _ => .ok ()
def commit (w : Write) : Act State := .perform (.commit w) id
def call (c : Call) : Act Reply := .perform (.call c) id
def clock : Act Clock := .perform .clock fun c => .ok c

/-- A region whose result nobody uses. -/
def commit' (w : Write) : Act Unit := do let _ ← commit w
def call' (c : Call) : Act Unit := do let _ ← call c

/-- An action behind an `if`. -/
def when (c : Bool) (a : Act Unit) : Act Unit := if c then a else pure ()

/-- `try` an action and say whether it returned. -/
def succeeds (a : Act Unit) : Act Bool :=
  tryCatch (do a; pure true) fun _ => pure false

end Act
end Graphlab.Runtime
