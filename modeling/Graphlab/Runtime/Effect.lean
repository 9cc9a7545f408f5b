import Graphlab.Runtime.Write

/-!
# What a critical section changes

Every region maps the runs and the jobs of the document pointwise: `Write.onRun` and
`Write.onJob` are those maps, and `apply_run` and `apply_job` say so.  The field lemmas
then say, once for all regions, what becomes of the state, the coverage, the captures,
the resources and the faults of a run.

## Main definitions

* `Write.onRun`, `Write.onJob` — the effect on one run and on one job.
* `RunWrite.apply_state` and its companions — the effect on one field.
-/

namespace Graphlab.Runtime

open Std (TreeMap)

namespace RunWrite

variable (clock : Clock) (r : Run) (w : RunWrite)

theorem apply_id : (w.apply clock r).id = r.id := by
  cases w <;> rfl

theorem apply_topology : (w.apply clock r).topology = r.topology := by
  cases w <;> rfl

/-- The state a region leaves. -/
theorem apply_state : (w.apply clock r).state = match w with
    | .state value => value
    | .armed _ => .armed
    | .monitorFailed _ _ => .reconciling
    | .faultFailure _ _ => .reconciling
    | .adopting => .reconciling
    | .adopted wasStopped wasClosed => if wasStopped && wasClosed then .stopped else r.state
    | _ => r.state := by
  cases w <;> rfl

/-- The coverage a region leaves. -/
theorem apply_captureCoverage : (w.apply clock r).captureCoverage = match w with
    | .armed _ => .armed
    | .closed coverage observations => Run.closedCoverage coverage observations
    | .monitorFailed _ _ => .incomplete
    | .adopting => adoptingCoverage r.captureCoverage
    | .adoptionFailed _ => .incomplete
    | _ => r.captureCoverage := by
  cases w <;> rfl

/-- The resources a region leaves. -/
theorem apply_resources : (w.apply clock r).resources = match w with
    | .intent resource => r.resources ++ [{ resource with state := .intent }]
    | .prepared identity => r.resources.modify (r.resources.length - 1) fun x =>
      { x with identity := some identity, state := .prepared }
    | .removed index => r.resources.modify index fun x => { x with state := .removed }
    | _ => r.resources := by
  cases w <;> rfl

/-- The captures a region leaves. -/
theorem apply_captures : (w.apply clock r).captures = match w with
    | .nextEpoch => []
    | .planned captures => captures
    | _ => r.captures := by
  cases w <;> rfl

theorem apply_captureHistory : (w.apply clock r).captureHistory = match w with
    | .nextEpoch => r.captureHistory ++ r.captures
    | _ => r.captureHistory := by
  cases w <;> rfl

theorem apply_captureEpoch : (w.apply clock r).captureEpoch = match w with
    | .nextEpoch => r.captureEpoch + 1
    | _ => r.captureEpoch := by
  cases w <;> rfl

theorem apply_revision : (w.apply clock r).revision = match w with
    | .faultExpired _ => r.revision + 1
    | .faultFailure _ _ => r.revision + 1
    | _ => r.revision := by
  cases w <;> rfl

/-- The fault a region sets, and its new state. -/
def setsFault : RunWrite → Option (FaultId × FaultState)
  | .faultCleared fid => some (fid, .removed)
  | .faultExpiring fid => some (fid, .removing)
  | .faultExpired fid => some (fid, .removed)
  | .faultFailure fid _ => some (fid, .recoveryRequired)
  | .faultRecovered fid => some (fid, .removed)
  | _ => none

/-- The fault a region leaves in the place of `f`. -/
def onFault (w : RunWrite) (fid : FaultId) (f : Fault) : Fault :=
  match w.setsFault with
  | some (i, value) => if i = fid then { f with state := value } else f
  | none => f

theorem apply_fault (fid : FaultId) :
    (w.apply clock r).faults[fid]? = r.faults[fid]?.map (w.onFault fid) := by
  have hset : ∀ (i : FaultId) (value : FaultState),
      (r.faults.modify i fun f => { f with state := value })[fid]? =
        r.faults[fid]?.map fun f => if i = fid then { f with state := value } else f := by
    intro i value
    rw [TreeMap.getElem?_modify]
    by_cases h : i = fid
    · subst h; simp
    · cases r.faults[fid]? <;> simp [h]
  have hid : r.faults[fid]? = r.faults[fid]?.map fun f => f := by simp
  cases w with
  | faultCleared i => exact hset i _
  | faultExpiring i => exact hset i _
  | faultExpired i => exact hset i _
  | faultFailure i e => exact hset i _
  | faultRecovered i => exact hset i _
  | _ => exact hid

end RunWrite

namespace Write

variable (clock : Clock) (s : State) (w : Write)

/-- The first region of `m5_execute`, on the run of its job. -/
def beginRun (j : Job) (r : Run) : Run :=
  match r.faults[j.faultId]? with
  | none => r
  | some fault =>
    if j.operation == .faultApply && j.cancelRequested then
      (r.setFault j.faultId .cancelled).event clock "fault-cancelled"
        (.fields [("faultId", j.faultId)])
    else if j.operation == .faultRemove && !fault.state.live then r
    else r.setFault j.faultId (if j.operation == .faultApply then .applying else .removing)

/-- The first region of `m5_execute`, on its job. -/
def beginJob (j : Job) : Job :=
  match s.runs[j.runId]?.bind fun r => r.faults[j.faultId]? with
  | none => j
  | some fault =>
    if j.operation == .faultApply && j.cancelRequested then { j with state := .cancelled }
    else if j.operation == .faultRemove && !fault.state.live then { j with state := .succeeded }
    else j

/-- The run a region leaves in the place of `r`. -/
def onRun (id : RunId) (r : Run) : Run :=
  match w with
  | .run i write => if i = id then write.apply clock r else r
  | .finished _ last observation => if last.id = id then finishRun last observation r else r
  | .failed job _ => if s.jobs[job]?.map Job.runId = some id then failRun r else r
  | .telemetryError error =>
    if r.state == .destroyed then r else { r with telemetryError := some error }
  | .faultBegin job =>
    match s.jobs[job]? with
    | some j => if j.runId = id then beginRun clock j r else r
    | none => r
  | .faultDone job cancel observed =>
    match s.jobs[job]? with
    | some j => if j.runId = id then doneRun clock j cancel observed r else r
    | none => r
  | .interrupted => interruptRun s id r
  | _ => r

/-- The job a region leaves in the place of `x`. -/
def onJob (j : JobId) (x : Job) : Job :=
  match w with
  | .finished job _ _ => if job = j then { x with state := .succeeded } else x
  | .startCancelled job => if job = j then { x with state := .cancelled } else x
  | .failed job error => if job = j then { x with state := .failed, error := some error } else x
  | .faultBegin job => if job = j then beginJob s x else x
  | .faultDone job cancel _ =>
    if job = j then { x with state := if cancel then .cancelled else .succeeded } else x
  | .interrupted => interruptJob x
  | _ => x

private theorem beginFault_run (job : JobId) (j : Job) (id : RunId) :
    (beginFault clock s job j).runs[id]? =
      s.runs[id]?.map fun r => if j.runId = id then beginRun clock j r else r := by
  by_cases hid : j.runId = id
  · subst hid
    unfold beginFault beginRun
    cases hr : s.runs[j.runId]? with
    | none => simp [hr]
    | some r =>
      cases hf : r.faults[j.faultId]? with
      | none => simp [hr, hf]
      | some =>
        simp only [Option.bind_some, hf, Option.map_some, if_true]
        split
        · simp [State.modifyRun_run, hr]
        · split
          · simp [hr]
          · simp [State.modifyRun_run, hr]
  · unfold beginFault
    split
    · simp [hid]
    · split
      · simp [State.modifyRun_run, hid]
      · split
        · simp
        · simp [State.modifyRun_run, hid]

private theorem beginFault_job (job : JobId) (j : Job) (hj : s.jobs[job]? = some j) (i : JobId) :
    (beginFault clock s job j).jobs[i]? =
      s.jobs[i]?.map fun x => if job = i then beginJob s x else x := by
  unfold beginFault beginJob
  by_cases hi : job = i
  · subst hi
    cases hf : s.runs[j.runId]?.bind fun r => r.faults[j.faultId]? with
    | none => simp [hj, hf]
    | some =>
      simp only [hj, Option.map_some, if_true, hf]
      split
      · simp [State.modifyJob_job, hj]
      · split
        · simp [State.modifyJob_job, hj]
        · simp [hj]
  · split
    · simp [hi]
    · split
      · simp [State.modifyJob_job, hi]
      · split
        · simp [State.modifyJob_job, hi]
        · simp

/-- Every region maps the runs pointwise. -/
theorem apply_run (id : RunId) :
    (w.apply clock s).runs[id]? = s.runs[id]?.map (w.onRun clock s id) := by
  have hsame : s.runs[id]? = s.runs[id]?.map fun r => r := by simp
  cases w with
  | run i write => exact s.modifyRun_run i id _
  | finished job last observation => exact s.modifyRun_run last.id id _
  | startCancelled => exact hsame
  | failed job error =>
    cases hr : s.runs[id]? <;> cases hj : s.jobs[job]? <;>
      simp [apply, failJob, State.modifyRun_run, onRun, hj, hr]
  | telemetryError =>
    cases hr : s.runs[id]? <;> simp [apply, onRun, TreeMap.getElem?_map, hr]
  | faultBegin job =>
    cases hj : s.jobs[job]? with
    | none => cases hr : s.runs[id]? <;> simp [apply, onRun, hj, hr]
    | some =>
      simp only [apply, hj]
      rw [beginFault_run]
      cases s.runs[id]? <;> simp [onRun, hj]
  | faultDone job cancel observed =>
    cases hr : s.runs[id]? <;> cases hj : s.jobs[job]? <;>
      simp [apply, finishFault, State.modifyRun_run, onRun, hj, hr]
  | sourceDone => exact hsame
  | interrupted => cases hr : s.runs[id]? <;> simp [apply, onRun, TreeMap.getElem?_map, hr]
  | flush => exact hsame

/-- Every region maps the jobs pointwise. -/
theorem apply_job (j : JobId) : (w.apply clock s).jobs[j]? = s.jobs[j]?.map (w.onJob s j) := by
  have hsame : s.jobs[j]? = s.jobs[j]?.map fun x => x := by simp
  cases w with
  | run => exact hsame
  | finished job last observation => exact State.modifyJob_job _ job j _
  | startCancelled job => exact s.modifyJob_job job j _
  | failed job error =>
    cases hj : s.jobs[job]? with
    | none =>
      by_cases h : job = j
      · subst h; simp [apply, hj]
      · cases hx : s.jobs[j]? <;> simp [apply, hj, onJob, h, hx]
    | some =>
      simp only [apply, hj, failJob, State.modifyRun_jobs]
      exact s.modifyJob_job job j _
  | telemetryError => exact hsame
  | faultBegin job =>
    cases hj : s.jobs[job]? with
    | none =>
      by_cases h : job = j
      · subst h; simp [apply, hj]
      · cases hx : s.jobs[j]? <;> simp [apply, hj, onJob, h, hx]
    | some x =>
      simp only [apply, hj]
      exact beginFault_job clock s job x hj j
  | faultDone job cancel observed =>
    cases hj : s.jobs[job]? with
    | none =>
      by_cases h : job = j
      · subst h; simp [apply, hj]
      · cases hx : s.jobs[j]? <;> simp [apply, hj, onJob, h, hx]
    | some =>
      simp only [apply, hj, finishFault]
      exact State.modifyJob_job _ job j _
  | sourceDone => exact hsame
  | interrupted => cases hx : s.jobs[j]? <;> simp [apply, onJob, TreeMap.getElem?_map, hx]
  | flush => exact hsame

theorem apply_keys : (w.apply clock s).keys = s.keys := by
  cases w with
  | failed => simp only [apply]; split <;> rfl
  | faultDone => simp only [apply]; split <;> rfl
  | faultBegin =>
    simp only [apply]
    split
    · unfold beginFault
      split
      · rfl
      · split
        · rfl
        · split <;> rfl
    · rfl
  | _ => rfl

theorem aborted_some {n : ℕ} {w cut : Write} (h : w.aborted n = some cut) :
    ∃ id began gaps, (∃ all, w = .run id (.samples began all)) ∧
      cut = .run id (.samples began gaps) := by
  unfold aborted at h
  split at h
  · exact ⟨_, _, _, ⟨_, rfl⟩, (Option.some.inj h).symm⟩
  · simp at h

/-! ## Case analysis -/

/-- What becomes of the run `r` at `id`. -/
inductive RunEffect (id : RunId) (r : Run) : Write → Run → Prop
  | same (w : Write) : RunEffect id r w r
  | run (write : RunWrite) : RunEffect id r (.run id write) (write.apply clock r)
  | finished (job : JobId) (last : Run) (observation : Health) (hid : last.id = id) :
      RunEffect id r (.finished job last observation) (finishRun last observation r)
  | failed (job : JobId) (error : String) (j : Job) (hj : s.jobs[job]? = some j)
      (hid : j.runId = id) : RunEffect id r (.failed job error) (failRun r)
  | telemetryError (error : String) :
      RunEffect id r (.telemetryError error) { r with telemetryError := some error }
  | faultBegin (job : JobId) (j : Job) (hj : s.jobs[job]? = some j) (hid : j.runId = id) :
      RunEffect id r (.faultBegin job) (beginRun clock j r)
  | faultDone (job : JobId) (cancel : Bool) (observed : String) (j : Job)
      (hj : s.jobs[job]? = some j) (hid : j.runId = id) :
      RunEffect id r (.faultDone job cancel observed) (doneRun clock j cancel observed r)
  | interrupted (job : JobId) (j : Job) (hj : s.jobs[job]? = some j) (hp : j.pending = true)
      (hid : j.runId = id) : RunEffect id r .interrupted { r with state := .reconciling }

/-- The region ends the job `x` at `j`. -/
def ends (j : JobId) (x : Job) : Write → Bool
  | .finished job _ _ => job == j
  | .startCancelled job => job == j
  | .failed job _ => job == j
  | .faultDone job _ _ => job == j
  | .interrupted => x.pending
  | _ => false

/-- What becomes of the job `x` at `j`. -/
inductive JobEffect (j : JobId) (x : Job) : Write → Job → Prop
  | same (w : Write) (h : w.ends j x = false) : JobEffect j x w x
  | finished (last : Run) (observation : Health) :
      JobEffect j x (.finished j last observation) { x with state := .succeeded }
  | startCancelled : JobEffect j x (.startCancelled j) { x with state := .cancelled }
  | failed (error : String) :
      JobEffect j x (.failed j error) { x with state := .failed, error := some error }
  | faultCancelled (hop : x.operation = .faultApply) :
      JobEffect j x (.faultBegin j) { x with state := .cancelled }
  | faultGone (hop : x.operation = .faultRemove) :
      JobEffect j x (.faultBegin j) { x with state := .succeeded }
  | faultDone (cancel : Bool) (observed : String) :
      JobEffect j x (.faultDone j cancel observed)
        { x with state := if cancel then .cancelled else .succeeded }
  | interrupted (hp : x.pending = true) :
      JobEffect j x .interrupted { x with state := .failed, error := some "agent_interrupted" }

theorem onRun_effect (id : RunId) (r : Run) :
    RunEffect clock s id r w (w.onRun clock s id r) := by
  unfold onRun
  cases w with
  | run i write =>
    by_cases h : i = id
    · subst h; simpa using .run write
    · simpa [h] using .same _
  | finished job last observation =>
    by_cases h : last.id = id
    · simpa [h] using .finished job last observation h
    · simpa [h] using .same _
  | failed job error =>
    cases hj : s.jobs[job]? with
    | none => simpa [hj] using .same _
    | some j =>
      by_cases h : j.runId = id
      · simpa [hj, h] using .failed job error j hj h
      · simpa [hj, h] using .same _
  | telemetryError error =>
    dsimp only
    split
    · exact .same _
    · exact .telemetryError error
  | faultBegin job =>
    cases hj : s.jobs[job]? with
    | none => simpa [hj] using .same _
    | some j =>
      by_cases h : j.runId = id
      · simpa [hj, h] using .faultBegin job j hj h
      · simpa [hj, h] using .same _
  | faultDone job cancel observed =>
    cases hj : s.jobs[job]? with
    | none => simpa [hj] using .same _
    | some j =>
      by_cases h : j.runId = id
      · simpa [hj, h] using .faultDone job cancel observed j hj h
      · simpa [hj, h] using .same _
  | interrupted =>
    dsimp only [interruptRun]
    split
    · next h =>
        simp only [List.any_eq_true, Bool.and_eq_true, beq_iff_eq] at h
        obtain ⟨⟨job, j⟩, hmem, hp, hid⟩ := h
        exact .interrupted job j (TreeMap.mem_toList_iff_getElem?_eq_some.1 hmem) hp hid
    · exact .same _
  | startCancelled => exact .same _
  | sourceDone => exact .same _
  | flush => exact .same _

theorem onJob_effect (j : JobId) (x : Job) : JobEffect j x w (w.onJob s j x) := by
  unfold onJob
  cases w with
  | finished job last observation =>
    by_cases h : job = j
    · subst h; simpa using .finished last observation
    · simpa [h] using .same _ (by simp [ends, h])
  | startCancelled job =>
    by_cases h : job = j
    · subst h; simpa using .startCancelled
    · simpa [h] using .same _ (by simp [ends, h])
  | failed job error =>
    by_cases h : job = j
    · subst h; simpa using .failed error
    · simpa [h] using .same _ (by simp [ends, h])
  | faultBegin job =>
    by_cases h : job = j
    · subst h
      simp only [if_true]
      unfold beginJob
      split
      · exact .same _ rfl
      · split
        · next hc =>
            simp only [Bool.and_eq_true, beq_iff_eq] at hc
            exact .faultCancelled hc.1
        · split
          · next hc =>
              simp only [Bool.and_eq_true, beq_iff_eq] at hc
              exact .faultGone hc.1
          · exact .same _ rfl
    · simpa [h] using .same _ (by simp [ends])
  | faultDone job cancel observed =>
    by_cases h : job = j
    · subst h; simpa using .faultDone cancel observed
    · simpa [h] using .same _ (by simp [ends, h])
  | interrupted =>
    dsimp only [interruptJob]
    split
    · next hp => exact .interrupted hp
    · next hp => exact .same _ (by simpa [ends] using hp)
  | _ => exact .same _ rfl

variable {clock s w}

/-- A run after a region comes from one before it. -/
theorem run_of_apply {id : RunId} {r' : Run} (h : (w.apply clock s).runs[id]? = some r') :
    ∃ r, s.runs[id]? = some r ∧ RunEffect clock s id r w r' := by
  rw [apply_run, Option.map_eq_some_iff] at h
  obtain ⟨r, hr, rfl⟩ := h
  exact ⟨r, hr, onRun_effect clock s w id r⟩

/-- A run before a region goes on after it. -/
theorem run_apply {id : RunId} {r : Run} (h : s.runs[id]? = some r) :
    ∃ r', (w.apply clock s).runs[id]? = some r' ∧ RunEffect clock s id r w r' := by
  rw [apply_run, h]
  exact ⟨_, rfl, onRun_effect clock s w id r⟩

/-- A region about one run. -/
theorem apply_run_some {i id : RunId} {r : Run} (h : s.runs[id]? = some r) (w : RunWrite)
    (clock : Clock) : ((Write.run i w).apply clock s).runs[id]? =
      some (if i = id then w.apply clock r else r) := by
  rw [apply_run, h]; rfl

variable {j : JobId} {fid : FaultId}

/-- A job after a region comes from one before it. -/
theorem job_of_apply {x' : Job} (h : (w.apply clock s).jobs[j]? = some x') :
    ∃ x, s.jobs[j]? = some x ∧ JobEffect j x w x' := by
  rw [apply_job, Option.map_eq_some_iff] at h
  obtain ⟨x, hx, rfl⟩ := h
  exact ⟨x, hx, onJob_effect s w j x⟩

/-- A job before a region goes on after it. -/
theorem job_apply {x : Job} (h : s.jobs[j]? = some x) :
    ∃ x', (w.apply clock s).jobs[j]? = some x' ∧ JobEffect j x w x' := by
  rw [apply_job, h]
  exact ⟨_, rfl, onJob_effect s w j x⟩

/-- A job that is pending after a region was so before, and is the same. -/
theorem JobEffect.eq_of_pending {x x' : Job} (h : JobEffect j x w x')
    (hp : x'.pending = true) : x' = x ∧ w.ends j x = false := by
  cases h with
  | same _ h => exact ⟨rfl, h⟩
  | faultDone cancel observed => cases cancel <;> simp [Job.pending] at hp
  | _ => simp [Job.pending] at hp

theorem JobEffect.core_eq {x x' : Job} (h : JobEffect j x w x') :
    x'.id = x.id ∧ x'.runId = x.runId ∧ x'.operation = x.operation ∧ x'.faultId = x.faultId ∧
      x'.revision = x.revision := by
  cases h <;> exact ⟨rfl, rfl, rfl, rfl, rfl⟩

/-! ## Fields of a run -/

variable {id : RunId} {r r' : Run}

theorem beginRun_eq (clock : Clock) (r : Run) (j : Job) :
    ∃ faults timeline, beginRun clock j r = { r with faults, timeline } := by
  unfold beginRun
  split
  · exact ⟨r.faults, r.timeline, rfl⟩
  · split
    · exact ⟨_, _, rfl⟩
    · split
      · exact ⟨r.faults, r.timeline, rfl⟩
      · exact ⟨_, r.timeline, rfl⟩

theorem RunEffect.id_eq (h : RunEffect clock s id r w r') : r'.id = r.id := by
  cases h with
  | run write => exact RunWrite.apply_id clock r write
  | faultBegin job j => obtain ⟨_, _, h⟩ := beginRun_eq clock r j; rw [h]
  | _ => rfl

theorem RunEffect.topology_eq (h : RunEffect clock s id r w r') : r'.topology = r.topology := by
  cases h with
  | run write => exact RunWrite.apply_topology clock r write
  | faultBegin job j => obtain ⟨_, _, h⟩ := beginRun_eq clock r j; rw [h]
  | _ => rfl

theorem RunEffect.recording_eq (h : RunEffect clock s id r w r') : r'.recording = r.recording := by
  simp only [Run.recording, h.topology_eq]

theorem RunEffect.captureEpoch_eq (h : RunEffect clock s id r w r') :
    r'.captureEpoch = r.captureEpoch ∨
      w = .run id .nextEpoch ∧ r'.captureEpoch = r.captureEpoch + 1 := by
  cases h with
  | run write =>
    rw [RunWrite.apply_captureEpoch]
    cases write with
    | nextEpoch => exact .inr ⟨rfl, rfl⟩
    | _ => exact .inl rfl
  | faultBegin job j => obtain ⟨_, _, h⟩ := beginRun_eq clock r j; simp [h]
  | _ => exact .inl rfl

theorem RunEffect.captureEpoch_le (h : RunEffect clock s id r w r') :
    r.captureEpoch ≤ r'.captureEpoch := by
  rcases h.captureEpoch_eq with h | ⟨_, h⟩ <;> omega

theorem RunEffect.captures_eq (h : RunEffect clock s id r w r') :
    r'.captures = r.captures ∨ w = .run id .nextEpoch ∧ r'.captures = [] ∨
      ∃ captures, w = .run id (.planned captures) ∧ r'.captures = captures := by
  cases h with
  | run write =>
    rw [RunWrite.apply_captures]
    cases write with
    | nextEpoch => exact .inr (.inl ⟨rfl, rfl⟩)
    | planned captures => exact .inr (.inr ⟨captures, rfl, rfl⟩)
    | _ => exact .inl rfl
  | faultBegin job j => obtain ⟨_, _, h⟩ := beginRun_eq clock r j; simp [h]
  | _ => exact .inl rfl

theorem RunEffect.revision_le (h : RunEffect clock s id r w r') : r.revision ≤ r'.revision := by
  cases h with
  | run write => rw [RunWrite.apply_revision]; cases write <;> simp
  | faultBegin job j => obtain ⟨_, _, h⟩ := beginRun_eq clock r j; simp [h]
  | _ => exact le_rfl

/-! ## Faults of a run -/

variable (clock s id)

/-- What becomes of the fault `f` at `fid` of the run `id`. -/
inductive FaultEffect (fid : FaultId) (f : Fault) : Write → Fault → Prop
  | same (w : Write) : FaultEffect fid f w f
  | set (write : RunWrite) (value : FaultState) (h : write.setsFault = some (fid, value)) :
      FaultEffect fid f (.run id write) { f with state := value }
  | cancelled (job : JobId) (j : Job) (hj : s.jobs[job]? = some j) (hid : j.runId = id)
      (hfid : j.faultId = fid) (hop : j.operation = .faultApply) :
      FaultEffect fid f (.faultBegin job) { f with state := .cancelled }
  | applying (job : JobId) (j : Job) (hj : s.jobs[job]? = some j) (hid : j.runId = id)
      (hfid : j.faultId = fid) (hop : j.operation = .faultApply) :
      FaultEffect fid f (.faultBegin job) { f with state := .applying }
  | removing (job : JobId) (j : Job) (hj : s.jobs[job]? = some j) (hid : j.runId = id)
      (hfid : j.faultId = fid) (hop : j.operation = .faultRemove → f.state.live = true)
      (hne : j.operation ≠ .faultApply) :
      FaultEffect fid f (.faultBegin job) { f with state := .removing }
  | done (job : JobId) (cancel : Bool) (observed : String) (j : Job)
      (hj : s.jobs[job]? = some j) (hid : j.runId = id) (hfid : j.faultId = fid) :
      FaultEffect fid f (.faultDone job cancel observed) (doneFault clock j cancel observed f)

variable {clock s id}

theorem FaultEffect.id_eq {f f' : Fault} (h : FaultEffect clock s id fid f w f') :
    f'.id = f.id ∧ f'.edge = f.edge ∧ f'.direction = f.direction := by
  cases h with
  | done => unfold doneFault; dsimp only; split <;> exact ⟨rfl, rfl, rfl⟩
  | _ => exact ⟨rfl, rfl, rfl⟩

/-- The one fault a region can change. -/
def faultOf (s : State) : Write → Option FaultId
  | .run _ write => write.setsFault.map Prod.fst
  | .faultBegin job => s.jobs[job]?.map Job.faultId
  | .faultDone job _ _ => s.jobs[job]?.map Job.faultId
  | _ => none

theorem FaultEffect.eq_or_faultOf {f f' : Fault}
    (h : FaultEffect clock s id fid f w f') : f' = f ∨ w.faultOf s = some fid := by
  cases h with
  | same => exact .inl rfl
  | set write value h => exact .inr (by simp [faultOf, h])
  | cancelled job j hj hid hfid => exact .inr (by simp [faultOf, hj, hfid])
  | applying job j hj hid hfid => exact .inr (by simp [faultOf, hj, hfid])
  | removing job j hj hid hfid => exact .inr (by simp [faultOf, hj, hfid])
  | done job cancel observed j hj hid hfid => exact .inr (by simp [faultOf, hj, hfid])

theorem setFault_fault (r : Run) (i fid : FaultId) (value : FaultState) :
    (r.setFault i value).faults[fid]? =
      r.faults[fid]?.map fun f => if i = fid then { f with state := value } else f := by
  simp only [Run.setFault, TreeMap.getElem?_modify, Std.LawfulEqCmp.compare_eq_iff_eq]
  by_cases h : i = fid
  · subst h; simp
  · cases r.faults[fid]? <;> simp [h]

private theorem beginRun_fault {job : JobId} {j : Job} (hj : s.jobs[job]? = some j)
    (hid : j.runId = id) (fid : FaultId) :
    ∃ g : Fault → Fault, (beginRun clock j r).faults[fid]? = r.faults[fid]?.map g ∧
      ∀ f, r.faults[fid]? = some f → FaultEffect clock s id fid f (.faultBegin job) (g f) := by
  have hsame : ∃ g : Fault → Fault, r.faults[fid]? = r.faults[fid]?.map g ∧
      ∀ f, r.faults[fid]? = some f → FaultEffect clock s id fid f (.faultBegin job) (g f) :=
    ⟨fun f => f, by simp, fun f _ => .same _⟩
  unfold beginRun
  split
  · exact hsame
  next fault hfault =>
  split
  · next hc =>
      simp only [Bool.and_eq_true, beq_iff_eq] at hc
      refine ⟨_, setFault_fault r j.faultId fid .cancelled, fun f _ => ?_⟩
      by_cases h : j.faultId = fid
      · simpa [h] using .cancelled job j hj hid h hc.1
      · simpa [h] using .same _
  · next hc =>
      split
      · exact hsame
      · next hr =>
          refine ⟨_, setFault_fault r j.faultId fid _, fun f hf => ?_⟩
          by_cases h : j.faultId = fid
          · by_cases hop : j.operation = .faultApply
            · simpa [h, hop] using .applying job j hj hid h hop
            · subst h
              cases hfault.symm.trans hf
              have hlive : j.operation = .faultRemove → fault.state.live = true := by
                intro h
                simpa [h] using hr
              simpa [hop] using .removing job j hj hid rfl hlive hop
          · simpa [h] using .same _

private theorem RunEffect.fault_map (h : RunEffect clock s id r w r') (fid : FaultId) :
    ∃ g : Fault → Fault, r'.faults[fid]? = r.faults[fid]?.map g ∧
      ∀ f, r.faults[fid]? = some f → FaultEffect clock s id fid f w (g f) := by
  cases h with
  | run write =>
    refine ⟨_, RunWrite.apply_fault clock r write fid, fun f _ => ?_⟩
    unfold RunWrite.onFault
    split
    · next i value h =>
        by_cases hi : i = fid
        · subst hi; simpa using .set write value h
        · simpa [hi] using .same _
    · exact .same _
  | faultBegin job j hj hid => exact beginRun_fault hj hid fid
  | faultDone job cancel observed j hj hid =>
    refine ⟨fun f => if j.faultId = fid then doneFault clock j cancel observed f else f, ?_,
      fun f _ => ?_⟩
    · simp only [doneRun, Run.event, TreeMap.getElem?_modify,
        Std.LawfulEqCmp.compare_eq_iff_eq]
      by_cases h : j.faultId = fid
      · subst h; simp
      · cases r.faults[fid]? <;> simp [h]
    · by_cases h : j.faultId = fid
      · simpa [h] using .done job cancel observed j hj hid h
      · simpa [h] using .same _
  | _ => exact ⟨fun f => f, by simp [finishRun, failRun], fun f _ => .same _⟩

/-- A fault after a region comes from one before it. -/
theorem RunEffect.fault_of_apply (h : RunEffect clock s id r w r') {f' : Fault}
    (hf : r'.faults[fid]? = some f') :
    ∃ f, r.faults[fid]? = some f ∧ FaultEffect clock s id fid f w f' := by
  obtain ⟨_, hg, heff⟩ := h.fault_map fid
  rw [hg, Option.map_eq_some_iff] at hf
  obtain ⟨f, hf, rfl⟩ := hf
  exact ⟨f, hf, heff f hf⟩

/-- A fault before a region goes on after it. -/
theorem RunEffect.fault_apply (h : RunEffect clock s id r w r') {f : Fault}
    (hf : r.faults[fid]? = some f) :
    ∃ f', r'.faults[fid]? = some f' ∧ FaultEffect clock s id fid f w f' := by
  obtain ⟨g, hg, heff⟩ := h.fault_map fid
  exact ⟨g f, by rw [hg, hf]; rfl, heff f hf⟩

end Write
end Graphlab.Runtime
