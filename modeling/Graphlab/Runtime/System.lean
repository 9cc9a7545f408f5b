import Graphlab.Runtime.Dispatch
import Graphlab.Runtime.Engine

/-!
# The agent as a system

The agent is the supervised process whose constructor is `construct`, whose worker
repeats `work`, and whose requests are `dispatch`.  The destructor's `stopping_` is
one more arrival.  A restart may be a reboot: it brings a boot identifier and a
clock reading, and memory is read back from the journal.

Identifiers the source draws at random are taken to be new: a request whose draw
repeats an identifier in use is not served.

## Main definitions

* `Arrival`, `Boot` — what reaches the agent from outside.
* `engine` — the system; `Reaches` and `Reached` its reachable configurations.
-/

namespace Graphlab.Runtime

open Lib

/-- What reaches a running agent from outside. -/
inductive Arrival
  | client (principal : ℕ) (request : Request) (draw : Draw)
  /-- The destructor asks the worker to stop. -/
  | shutdown

/-- What a new process finds. -/
structure Boot where
  boot : String := ""
  now : ℕ := 0
  deriving DecidableEq, Repr, Inhabited

/-- The drawn identifiers are not in use. -/
def Draw.fresh (draw : Draw) (mem : State) : Bool :=
  !mem.runs.contains draw.runId && !mem.jobs.contains draw.jobId &&
  mem.runs.toList.all fun e => !e.2.faults.contains draw.faultId

/-- The effect of an arrival. -/
def arrive (site : Site) (a : Arrival) (s : Shared) : Shared :=
  match a with
  | .client principal request draw =>
    if draw.fresh s.mem then (dispatch site principal request draw s).2 else s
  | .shutdown => { s with stopping := true }

/-- A new process on the same state directory. -/
def reboot (b : Boot) (s : Shared) : Shared :=
  { s with
    mem := s.journal
    stopping := false
    clock := { boot := b.boot, now := b.now }
    restartedAt := b.now
    log := .restarted :: s.log }

/-- The agent. -/
def engine (site : Site) : Supervised Op Ans Failure Shared Arrival Outcome Boot where
  perform := perform
  request := arrive site
  restart := reboot
  construct := construct
  body := work

/-- A configuration of the agent. -/
abbrev Agent := Config Op Ans Failure Shared

/-- One choice of the surroundings of the agent. -/
abbrev Choice := Input Arrival Outcome Boot

/-- A condition on the steps of the agent. -/
abbrev StepCondition := Supervised.Condition Op Ans Failure Shared Arrival Outcome Boot

/-- A fresh state directory, with no process. -/
def initial : Agent := ⟨{}, .down⟩

/-- Reachable from a fresh state directory by steps that meet a condition. -/
abbrev Reaches (site : Site) (ok : StepCondition) (c : Agent) : Prop :=
  (engine site).Reach ok {} c

/-- Reachable from a fresh state directory. -/
abbrev Reached (site : Site) (c : Agent) : Prop := Reaches site Supervised.always c

/-! ## A small installation

One topology without nodes, with an edge or without, for concrete runs. -/

namespace Sample

def site (captureRequired : Bool) : Site where
  digest request := toString (repr request)
  sourceKey principal id := toString principal ++ ":" ++ id
  sourceSize _ := 0
  resolve _ := some { topology := { captureRequired } }

/-- The same with one edge. -/
def wired (captureRequired : Bool) : Site :=
  { site captureRequired with
    resolve := fun _ => some { topology := { captureRequired, edges := ["link"] } } }

/-- A request of the first principal. -/
def request (r : Request) (runId : RunId) (jobId : JobId) : Choice :=
  .request (.client 0 r { runId, jobId })

def start (runId : RunId) (jobId : JobId) (key : String) : Choice :=
  request (.start { topologyHash := "t", idempotencyKey := key, developmentMode := some true })
    runId jobId

def operate (runId : RunId) (operation expectedRevision : String) (jobId : JobId) (key : String) :
    Choice :=
  request (.operate { runId, operation, expectedRevision, idempotencyKey := key }) "" jobId

/-- Steps of the worker in which everything succeeds. -/
def working (n : ℕ) : List Choice := List.replicate n (.work {})

/-- A step of the worker whose call or `save` throws. -/
def failing : Choice := .work { error := some "failed" }

/-- A process starts on an empty state directory. -/
def up : List Choice := .restart {} :: working 4

end Sample
end Graphlab.Runtime
