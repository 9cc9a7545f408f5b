import Graphlab.Runtime.Rules

/-!
# Programs that leave the source commands alone

Source commands are sent and finished by `source_work` only.  `Op.plain` are the
operations that do neither; this module shows that the constructor, the monitor and
the jobs consist of them, one program after the other.

## Main results

* `monitor_plain`, `execute_plain`, `handleFailure_plain`, `adoptRuns_plain`.
-/

namespace Graphlab.Runtime

open Lib Lib.Prog

/-- The operation neither sends a source command nor finishes one.  Regions that end
without `save` are those of `Write.unsaved`. -/
def Op.plain : Op → Prop
  | .call (.sourceControl _ _ (some _)) => False
  | .commit (.sourceDone _ _ _) => False
  | .update w => w.unsaved = true
  | _ => True

/-- The program consists of plain operations. -/
abbrev Plain {α : Type} (p : Act α) : Prop := p.Uses Op.plain

variable {α : Type}

theorem plain_commit' {w : Write} (h : (Op.commit w).plain) : Plain (Act.commit' w) :=
  .bind (.perform h) fun _ => trivial

theorem plain_call' {c : Call} (h : (Op.call c).plain) : Plain (Act.call' c) :=
  .bind (.perform h) fun _ => trivial

theorem plain_succeeds {a : Act Unit} (h : Plain a) : Plain (Act.succeeds a) :=
  .handle (.bind h fun _ => trivial) fun _ => trivial

theorem plain_readRun (id : RunId) : Plain (readRun id) := by
  refine .bind (.perform trivial) fun s => ?_
  split <;> trivial

theorem plain_snapshot (job : JobId) : Plain (snapshot job) := by
  refine .bind (.perform trivial) fun s => ?_
  split
  · trivial
  · split <;> trivial

/-! ## Faults -/

theorem m5FaultFailure_plain (id : RunId) (fid : FaultId) (error : String) :
    Plain (m5FaultFailure id fid error) := by
  refine .bind (.perform trivial) fun s => ?_
  split
  · exact plain_commit' trivial
  · refine .bind (.handle (.bind (plain_call' trivial) fun _ => trivial) fun _ => trivial) fun _ => ?_
    exact plain_commit' trivial

theorem clearFaults_plain (run : Run) (list : List (FaultId × Fault)) :
    Plain (clearFaults run list) := by
  induction list with
  | nil => trivial
  | cons e rest ih =>
    exact .bind (uses_when (.bind (plain_call' trivial) fun _ => plain_commit' trivial)) fun _ => ih

theorem m5Execute_plain (job : JobId) : Plain (m5Execute job) := by
  refine .bind (.perform trivial) fun s => ?_
  split
  · trivial
  split
  · trivial
  split
  · trivial
  split
  · trivial
  refine .bind (.perform trivial) fun reply => .bind (.perform trivial) fun s => ?_
  exact .bind (uses_when (plain_call' trivial)) fun _ => plain_commit' trivial

theorem expireFaults_plain (id : RunId) (run : Run) (state : RunState)
    (list : List (FaultId × Fault)) : Plain (expireFaults id run state list) := by
  induction list generalizing state with
  | nil => trivial
  | cons e rest ih =>
    refine .bind (.perform trivial) fun clock => ?_
    split
    · refine .bind (plain_commit' trivial) fun _ => .bind (.handle ?_ fun e => ?_) fun _ => ih _
      · exact .bind (plain_call' trivial) fun _ =>
          .bind (plain_commit' trivial) fun _ => trivial
      · exact .bind (m5FaultFailure_plain _ _ _) fun _ => trivial
    · exact ih state

theorem collect_plain (id : RunId) (run : Run) : Plain (collect id run) := by
  have hattempt : ∀ {β : Type} (c : Call) (f : Reply → β) (g : Failure → β), (Op.call c).plain →
      Plain (tryCatch (do let reply ← Act.call c; pure (f reply)) fun e => pure (g e)) :=
    fun c f g h => .handle (.bind (.perform h) fun _ => trivial) fun _ => trivial
  refine .bind (.perform trivial) fun began => .bind (uses_when ?_) fun _ => ?_
  · exact .bind (hattempt _ _ _ trivial) fun _ => .perform rfl
  · exact .bind (hattempt _ _ _ trivial) fun _ => plain_commit' trivial

theorem monitorRuns_plain (runs : List (RunId × Run)) : Plain (monitorRuns runs) := by
  induction runs with
  | nil => trivial
  | cons e rest ih =>
    refine .bind ?_ fun _ => ih
    unfold monitorRun
    split
    · trivial
    refine .bind (expireFaults_plain _ _ _ _) fun state => ?_
    split
    · trivial
    · exact collect_plain _ _

theorem m5Monitor_plain : Plain m5Monitor :=
  .bind (.perform trivial) fun _ => monitorRuns_plain _

theorem recoverFaults_plain (id : RunId) (list : List (FaultId × Fault)) :
    Plain (recoverFaults id list) := by
  have hfault : ∀ fid f, Plain (recoverFault id fid f) := fun fid f =>
    .bind (plain_readRun id) fun run =>
      .handle (.bind (plain_call' trivial) fun _ => .perform rfl) fun e =>
        m5FaultFailure_plain _ _ _
  induction list with
  | nil => trivial
  | cons e rest ih =>
    exact .bind (uses_when (.bind (.perform trivial) fun _ => uses_when (hfault _ _))) fun _ => ih

theorem m5Recover_plain : Plain m5Recover := by
  have hruns : ∀ ids, Plain (recoverRuns ids) := by
    intro ids
    induction ids with
    | nil => trivial
    | cons id rest ih =>
      exact .bind (plain_readRun id) fun run => .bind (uses_when (recoverFaults_plain _ _)) fun _ => ih
  exact .bind (.perform trivial) fun _ => .bind (hruns _) fun _ => plain_commit' trivial

/-! ## Jobs -/

theorem closeCaptures_plain (id : RunId) : Plain (closeCaptures id) :=
  .bind (plain_readRun id) fun _ =>
    uses_when (.bind (.perform trivial) fun _ => plain_commit' trivial)

theorem cleanup_plain (id : RunId) : Plain (cleanup id) := by
  have hsessions : ∀ generation sessions, Plain (stopSessions generation sessions) := by
    intro generation sessions
    induction sessions with
    | nil => trivial
    | cons s rest ih => exact .bind (plain_call' trivial) fun _ => ih
  have hresources : ∀ run index, Plain (removeResources run index) := by
    intro run index
    induction index with
    | zero => trivial
    | succ index ih =>
      unfold removeResources
      split
      · exact ih
      · split
        · exact .bind (plain_call' trivial) fun _ => .bind (plain_commit' trivial) fun _ => ih
        · exact ih
  refine .bind (.bind (plain_readRun id) fun run => clearFaults_plain _ _) fun _ => ?_
  refine .bind (closeCaptures_plain id) fun _ => .bind (plain_readRun id) fun run => ?_
  exact .bind (hsessions _ _) fun _ => hresources _ _

theorem arm_plain (job : JobId) (recording : Bool) (run : Run) : Plain (arm job recording run) := by
  unfold arm
  split
  · trivial
  refine .bind (plain_snapshot job) fun _ => .bind (uses_when (plain_call' trivial)) fun _ => ?_
  refine .bind (plain_commit' trivial) fun _ => .bind (plain_snapshot job) fun _ => ?_
  refine .bind (.perform trivial) fun _ => .bind (plain_commit' trivial) fun _ => ?_
  refine .bind (plain_snapshot job) fun _ => .bind (.perform trivial) fun _ => ?_
  exact .bind (plain_commit' trivial) fun _ => .bind (plain_snapshot job) fun _ => trivial

theorem prepareResources_plain (job : JobId) (id : RunId) (cancel : Bool) (list : List Resource) :
    Plain (prepareResources job id cancel list) := by
  induction list generalizing cancel with
  | nil => cases cancel <;> trivial
  | cons resource rest ih =>
    cases cancel with
    | true => trivial
    | false =>
      refine .bind (plain_commit' trivial) fun _ => .bind (plain_snapshot job) fun _ => ?_
      refine .bind (.perform trivial) fun _ => .bind (plain_commit' trivial) fun _ => ?_
      exact .bind (.perform trivial) fun cancel => ih cancel

theorem complete_plain (job : JobId) : Plain (complete job) :=
  .bind (plain_snapshot job) fun _ => .bind (.perform trivial) fun _ => plain_commit' trivial

theorem executeStart_plain (job : JobId) (run : Run) : Plain (executeStart job run) := by
  have hconverge : ∀ cancel, Plain (converge job run.recording cancel) := by
    intro cancel
    cases cancel with
    | true => trivial
    | false =>
      refine .bind (plain_snapshot job) fun _ => .bind (arm_plain _ _ _) fun _ => ?_
      exact .bind (plain_commit' trivial) fun _ => .bind (plain_call' trivial) fun _ =>
        .perform trivial
  have hrelease : ∀ cancel, Plain (releaseGates job run.recording cancel) := by
    intro cancel
    cases cancel with
    | true => trivial
    | false =>
      refine .bind (plain_snapshot job) fun _ => .bind (uses_when (plain_call' trivial)) fun _ => ?_
      exact .bind (plain_call' trivial) fun _ => .perform trivial
  have hcompensate : Plain (compensate job run.id) := by
    refine .bind (plain_commit' trivial) fun _ => .bind (plain_snapshot job) fun _ => ?_
    refine .bind (plain_succeeds (plain_call' trivial)) fun _ => .bind (cleanup_plain _) fun _ => ?_
    exact .bind (plain_commit' trivial) fun _ => plain_commit' trivial
  refine .bind (uses_when (plain_call' trivial)) fun _ => .bind (plain_call' trivial) fun _ => ?_
  refine .bind (.perform trivial) fun _ => .bind (prepareResources_plain _ _ _ _) fun _ => ?_
  refine .bind (hconverge _) fun _ => .bind (hrelease _) fun cancel => ?_
  split
  · exact hcompensate
  · exact .bind (plain_commit' trivial) fun _ => complete_plain job

theorem executeStop_plain (job : JobId) (run : Run) : Plain (executeStop job run) :=
  .bind (plain_call' trivial) fun _ => .bind (uses_when (closeCaptures_plain _)) fun _ =>
    .bind (plain_commit' trivial) fun _ => complete_plain job

theorem executeResume_plain (job : JobId) (recording : Bool) :
    Plain (executeResume job recording) := by
  refine .bind m5Monitor_plain fun _ => .bind (plain_snapshot job) fun _ => ?_
  refine .bind (uses_when trivial) fun _ => .bind (arm_plain _ _ _) fun _ => ?_
  refine .bind (plain_call' trivial) fun _ => .bind (uses_when (plain_call' trivial)) fun _ => ?_
  refine .bind m5Monitor_plain fun _ => .bind (plain_snapshot job) fun _ => ?_
  refine .bind (uses_when trivial) fun _ => .bind (plain_call' trivial) fun _ => ?_
  exact .bind (plain_commit' trivial) fun _ => complete_plain job

theorem executeDestroy_plain (job : JobId) (run : Run) : Plain (executeDestroy job run) := by
  refine .bind (plain_commit' trivial) fun _ => .bind (plain_succeeds (plain_call' trivial)) fun _ => ?_
  exact .bind (cleanup_plain _) fun _ => .bind (plain_commit' trivial) fun _ => complete_plain job

theorem execute_plain (job : JobId) : Plain (execute job) := by
  refine .bind (plain_snapshot job) fun x => ?_
  obtain ⟨j, run⟩ := x
  dsimp only
  cases j.operation with
  | faultApply => exact m5Execute_plain job
  | faultRemove => exact m5Execute_plain job
  | start => exact executeStart_plain job run
  | stop => exact executeStop_plain job run
  | resume => exact executeResume_plain job _
  | destroy => exact executeDestroy_plain job run
  | recover => exact executeDestroy_plain job run

theorem handleFailure_plain (job : JobId) (e : Failure) : Plain (handleFailure job e) := by
  refine .bind (.perform trivial) fun s => ?_
  split
  · trivial
  · exact .bind (plain_succeeds (plain_call' trivial)) fun _ => plain_commit' trivial

/-! ## The monitor and the constructor -/

theorem watch_plain (run : Run) : Plain (watch run) := by
  have hstatus : Plain (captureStatus run) := by
    unfold captureStatus
    split
    · exact .bind (.perform trivial) fun _ => trivial
    · trivial
  refine .handle (.bind hstatus fun _ => ?_) fun e => ?_
  · exact .bind (plain_call' trivial) fun _ => plain_commit' trivial
  · exact .bind (plain_succeeds (plain_call' trivial)) fun _ => plain_commit' trivial

theorem monitor_plain : Plain monitor := by
  refine .bind (.handle m5Monitor_plain fun e => plain_commit' trivial) fun _ => ?_
  refine .bind (.perform trivial) fun s => ?_
  split
  · trivial
  · exact watch_plain _

theorem takeOver_plain (id : RunId) (wasClosed : Bool) : Plain (takeOver id wasClosed) := by
  have hsessions : ∀ generation sessions, Plain (adoptSessions id generation sessions) := by
    intro generation sessions
    induction sessions with
    | nil => trivial
    | cons s rest ih =>
      exact .bind (plain_succeeds (plain_call' trivial)) fun _ =>
        .bind (uses_when (.perform rfl)) fun _ => ih
  refine .bind (plain_readRun id) fun _ => .bind (uses_when ?_) fun _ => ?_
  · exact .bind (.perform trivial) fun _ => .perform rfl
  · exact .bind (plain_readRun id) fun _ => .bind (plain_call' trivial) fun _ => hsessions _ _

theorem adoptRun_plain (id : RunId) : Plain (adoptRun id) := by
  refine .bind (plain_readRun id) fun run => ?_
  split
  · trivial
  refine .bind (plain_commit' trivial) fun _ => .bind (.handle ?_ fun _ => trivial) fun error => ?_
  · exact .bind (takeOver_plain _ _) fun _ => trivial
  · cases error <;> exact plain_commit' trivial

theorem adoptRuns_plain (ids : List RunId) : Plain (adoptRuns ids) := by
  induction ids with
  | nil => trivial
  | cons id rest ih => exact .bind (adoptRun_plain id) fun _ => ih

end Graphlab.Runtime
