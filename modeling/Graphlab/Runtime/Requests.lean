import Graphlab.Runtime.System

/-!
# What a request can do

`Serve` lists the changes a request makes to the shared state, one `save` at a time,
with what admission has checked; `arrive_serve` says that nothing else happens.
Later proofs are case analyses over `Serve` and never open a dispatcher.

The inversion lemmas `admitLifecycle_inr` and `admitFault_inr` are equivalences, so
they also say when a request is admitted.

## Main definitions

* `Admits` — the run an admitted job leaves.
* `Serve`, `Served` — the changes; `arrive_cases`, `arrive_serve`.
-/

namespace Graphlab.Runtime

open Std (TreeMap)

/-- The run an admitted job leaves, from the document before. -/
inductive Admits (clock : Clock) (mem : State) (job : Job) : Run → Prop
  | start (topology : Topology) (profile : Profile) (hash : String)
      (workloads : List (String × String)) (policy : CapturePolicy)
      (hop : job.operation = .start) (hrev : job.revision = 1)
      (hnew : mem.runs[job.runId]? = none)
      (hidle : ∀ (id : RunId) (r : Run), mem.runs[id]? = some r → r.state = .destroyed) :
      Admits clock mem job
        { id := job.runId, observationProfile := profile, topologyHash := hash, topology,
          workloads, capturePolicy := policy
          captureCoverage := if topology.captureRequired then .pending else .unavailable }
  | operate (r : Run) (hr : mem.runs[job.runId]? = some r)
      (hrev : job.revision = r.revision + 1)
      (hop : job.operation = .stop ∧ (r.state = .ready ∨ r.state = .stopped) ∨
        job.operation = .resume ∧ r.state = .stopped ∨
        job.operation = .destroy ∨ job.operation = .recover) :
      Admits clock mem job r.bump
  | apply (r : Run) (f : Fault) (detail : Detail) (hr : mem.runs[job.runId]? = some r)
      (hrev : job.revision = r.revision + 1) (hop : job.operation = .faultApply)
      (hstate : r.state = .ready ∨ r.state = .stopped) (hid : f.id = job.faultId)
      (hnew : r.faults[job.faultId]? = none) (hqueued : f.state = .queued)
      (hboot : f.bootId = clock.boot)
      (hfree : directionBusy r f = false) :
      Admits clock mem job
        (({ r with faults := r.faults.insert job.faultId f }).bump.event clock "fault-admitted"
          detail)
  | remove (r : Run) (detail : Detail) (hr : mem.runs[job.runId]? = some r)
      (hrev : job.revision = r.revision + 1) (hop : job.operation = .faultRemove)
      (hknown : r.faults.contains job.faultId = true) :
      Admits clock mem job (r.bump.event clock "fault-admitted" detail)

/-- One change a request makes: at most one `save`. -/
inductive Serve : Shared → Shared → Prop
  | stop (s : Shared) : Serve s { s with stopping := true }
  | cancel (s : Shared) (j : JobId) (job : Job) (error : Option String)
      (hs : s.stopping = false) (hj : s.mem.jobs[j]? = some job) (hp : job.pending = true) :
      Serve s
        (s.saveRequest (s.mem.modifyJob j fun j => { j with cancelRequested := true }) error)
  | enrol (s : Shared) (job : Job) (run : Run) (key hash : String) (error : Option String)
      (hs : s.stopping = false) (hidle : s.mem.hasPending = false) (hsize : s.mem.jobs.size < 256)
      (hnew : s.mem.jobs[job.id]? = none) (hkey : s.mem.keys[key]? = none)
      (hq : job.state = .queued) (hc : job.cancelRequested = false)
      (hrun : Admits s.clock s.mem job run) :
      Serve s
        (s.enrol (s.mem.enqueue run key hash job) job.id error)
  | session (s : Shared) (id : RunId) (r : Run) (d : Session) (error : Option String)
      (hs : s.stopping = false) (hidle : s.mem.hasPending = false)
      (hr : s.mem.runs[id]? = some r) (hstate : r.state = .ready ∨ r.state = .stopped) :
      Serve s
        (s.saveRequest (s.mem.modifyRun id fun r => { r with sessions := r.sessions ++ [d] }) error)
  | sessionLost (s : Shared) (id : RunId) (error : Option String)
      (hs : s.stopping = false) (hidle : s.mem.hasPending = false) :
      Serve s
        (s.saveRequest (s.mem.modifyRun id fun r => { r with terminalRecoveryRequired := true })
          error)
  | source (s : Shared) (key : String) (c : SourceCommand) (error : Option String)
      (hs : s.stopping = false) (hidle : s.mem.hasPending = false)
      (hnew : s.mem.sourceCommands[key]? = none) :
      Serve s
        (s.saveRequest { s.mem with sourceCommands := s.mem.sourceCommands.insert key c } error)

/-- Any number of changes. -/
abbrev Served : Shared → Shared → Prop := Relation.ReflTransGen Serve

/-- Any number of changes that admit no job. -/
abbrev ServedQuietly : Shared → Shared → Prop :=
  Relation.ReflTransGen fun s t => Serve s t ∧ t.mem.jobs = s.mem.jobs

theorem ServedQuietly.jobs_eq {s t : Shared} (h : ServedQuietly s t) : t.mem.jobs = s.mem.jobs := by
  induction h with
  | refl => rfl
  | tail _ h ih => exact h.2.trans ih

variable {clock : Clock} {mem : State} {fid : FaultId} {id : RunId} {site : Site} {principal : ℕ}
    {draw : Draw}

/-- Admission creates a run, or moves one to its next revision; of the rest only the
faults and the timeline can change. -/
theorem Admits.new_or_next {job : Job} {run : Run} (h : Admits clock mem job run) :
    (job.operation = .start ∧ mem.runs[job.runId]? = none ∧ ∃ profile hash topology workloads policy,
      run = { id := job.runId, observationProfile := profile, topologyHash := hash, topology,
              workloads, capturePolicy := policy
              captureCoverage := if topology.captureRequired then .pending else .unavailable }) ∨
    ∃ r, job.operation ≠ .start ∧ mem.runs[job.runId]? = some r ∧ ∃ faults timeline,
      run = { r with revision := r.revision + 1, faults, timeline } := by
  cases h with
  | start topology profile hash workloads policy hop hrev hnew =>
    exact .inl ⟨hop, hnew, profile, hash, topology, workloads, policy, rfl⟩
  | operate r hr hrev hop =>
    refine .inr ⟨r, ?_, hr, r.faults, r.timeline, rfl⟩
    rcases hop with ⟨hop, -⟩ | ⟨hop, -⟩ | hop | hop <;> simp [hop]
  | apply r f detail hr hrev hop => exact .inr ⟨r, by simp [hop], hr, _, _, rfl⟩
  | remove r detail hr hrev hop => exact .inr ⟨r, by simp [hop], hr, _, _, rfl⟩

/-- A fault of the admitted run was there before, or is the one that is admitted. -/
theorem Admits.fault {job : Job} {run : Run} (h : Admits clock mem job run) {f : Fault}
    (hf : run.faults[fid]? = some f) :
    (∃ r, mem.runs[job.runId]? = some r ∧ r.faults[fid]? = some f) ∨
    (job.operation = .faultApply ∧ fid = job.faultId ∧ f.id = fid ∧ f.state = .queued ∧
      f.bootId = clock.boot ∧ ∃ r, mem.runs[job.runId]? = some r ∧ r.faults[fid]? = none ∧
      directionBusy r f = false) := by
  cases h with
  | start => simp at hf
  | operate r hr hrev hop => exact .inl ⟨r, hr, hf⟩
  | remove r detail hr hrev hop => exact .inl ⟨r, hr, hf⟩
  | apply r g detail hr hrev hop hstate hid hnew hq hboot hfree =>
    have hf : (r.faults.insert job.faultId g)[fid]? = some f := hf
    simp only [TreeMap.getElem?_insert, Std.LawfulEqCmp.compare_eq_iff_eq] at hf
    split at hf
    · next h =>
        cases hf
        subst h
        exact .inr ⟨hop, rfl, hid, hq, hboot, r, hr, hnew, hfree⟩
    · exact .inl ⟨r, hr, hf⟩

/-- The faults of a run stay when a job is admitted on it. -/
theorem Admits.fault_keeps {job : Job} {run r : Run} (h : Admits clock mem job run)
    (hr : mem.runs[job.runId]? = some r) {f : Fault}
    (hf : r.faults[fid]? = some f) : run.faults[fid]? = some f := by
  cases h with
  | start topology profile hash workloads policy hop hrev hnew => simp [hnew] at hr
  | operate r' hr' hrev hop =>
    cases hr.symm.trans hr'
    exact hf
  | remove r' detail hr' hrev hop =>
    cases hr.symm.trans hr'
    exact hf
  | apply r' g detail hr' hrev hop hstate hid hnew =>
    cases hr.symm.trans hr'
    have hne : job.faultId ≠ fid := by
      rintro rfl
      simp [hnew] at hf
    show (r.faults.insert job.faultId g)[fid]? = some f
    simp only [TreeMap.getElem?_insert, Std.LawfulEqCmp.compare_eq_iff_eq, if_neg hne, hf]

/-! ## One run, one job -/

section

variable {s t : Shared}

theorem State.enqueue_run (d : State) (run : Run) (key hash : String) (job : Job) (id : RunId) :
    (d.enqueue run key hash job).runs[id]? = if job.runId = id then some run else d.runs[id]? := by
  simp only [State.enqueue, TreeMap.getElem?_insert, Std.LawfulEqCmp.compare_eq_iff_eq]

theorem State.enqueue_job (d : State) (run : Run) (key hash : String) (job : Job) (j : JobId) :
    (d.enqueue run key hash job).jobs[j]? = if job.id = j then some job else d.jobs[j]? := by
  simp only [State.enqueue, TreeMap.getElem?_insert, Std.LawfulEqCmp.compare_eq_iff_eq]

/-- Beside its change of memory a request saves memory, or closes the agent. -/
theorem Serve.shape (h : Serve s t) :
    (∃ mem new, t = { s with mem, journal := mem, admitted := new ++ s.admitted }) ∨
      ∃ mem, t = { s with mem, stopping := true } := by
  have hsave : ∀ mem error,
      (∃ m new, s.saveRequest mem error = { s with mem := m, journal := m, admitted := new ++ s.admitted }) ∨
        ∃ m, s.saveRequest mem error = { s with mem := m, stopping := true } := by
    intro mem error
    cases error with
    | none => exact .inl ⟨mem, [], rfl⟩
    | some => exact .inr ⟨mem, rfl⟩
  cases h with
  | stop => exact .inr ⟨s.mem, rfl⟩
  | cancel j job error => exact hsave _ error
  | session id r d error => exact hsave _ error
  | sessionLost id error => exact hsave _ error
  | source key c error => exact hsave _ error
  | enrol job run key hash error =>
    cases error with
    | none => exact .inl ⟨_, [_], rfl⟩
    | some => exact .inr ⟨_, rfl⟩

/-- A request leaves no trace in the log of the worker. -/
theorem Serve.log_eq (h : Serve s t) : t.log = s.log := by
  rcases h.shape with ⟨_, _, rfl⟩ | ⟨_, rfl⟩ <;> rfl

theorem Serve.world_eq (h : Serve s t) : t.world = s.world := by
  rcases h.shape with ⟨_, _, rfl⟩ | ⟨_, rfl⟩ <;> rfl

variable {j : JobId}

/-- An admission that was committed is recorded. -/
theorem Serve.admitted_mono (h : Serve s t) (hj : j ∈ s.admitted) : j ∈ t.admitted := by
  rcases h.shape with ⟨_, _, rfl⟩ | ⟨_, rfl⟩
  · exact List.mem_append_right _ hj
  · exact hj

/-- Once the agent stops, requests change nothing. -/
theorem Serve.eq_of_stopping (h : Serve s t) (hs : s.stopping = true) :
    t = { s with stopping := true } := by
  cases h with
  | stop => rfl
  | _ => simp_all

/-- What memory has and the journal had, both have. -/
theorem both_of_saved {P : State → Prop} (hmem : P t.mem) (hjournal : P s.journal)
    (h : t.journal = t.mem ∨ t.journal = s.journal) : P t.mem ∧ P t.journal := by
  rcases h with hj | hj
  · exact ⟨hmem, hj ▸ hmem⟩
  · exact ⟨hmem, hj ▸ hjournal⟩

/-- What a request saved is in the journal, or nothing was saved. -/
theorem Serve.journal_eq (h : Serve s t) : t.journal = t.mem ∨ t.journal = s.journal := by
  rcases h.shape with ⟨_, _, rfl⟩ | ⟨_, rfl⟩
  · exact .inl rfl
  · exact .inr rfl

/-- A request saves what it changed, or closes the agent. -/
theorem Serve.saved (h : Serve s t) : t.journal = t.mem ∨ t.stopping = true := by
  rcases h.shape with ⟨_, _, rfl⟩ | ⟨_, rfl⟩
  · exact .inl rfl
  · exact .inr rfl

/-- While a job is pending, requests leave the runs alone. -/
theorem Serve.runs_eq (h : Serve s t) (hp : s.mem.hasPending = true) :
    t.mem.runs = s.mem.runs := by
  cases h with
  | stop => rfl
  | cancel j job error => cases error <;> rfl
  | _ => simp_all

/-- All that a request can change of a run that is there: of its faults, none. -/
def Run.Touched (r r' : Run) : Prop :=
  ∃ revision sessions lost faults timeline,
    r' = { r with revision, sessions, terminalRecoveryRequired := lost, faults, timeline } ∧
    ∀ (fid : FaultId) (f : Fault), r.faults[fid]? = some f → faults[fid]? = some f

theorem Run.Touched.refl (r : Run) : r.Touched r := ⟨_, _, _, _, _, rfl, fun _ _ h => h⟩

@[simp] theorem Shared.saveRequest_mem (mem : State) (error : Option String) :
    (s.saveRequest mem error).mem = mem := by
  cases error <;> rfl

@[simp] theorem Shared.enrol_mem (mem : State) (job : JobId) (error : Option String) :
    (s.enrol mem job error).mem = mem := by
  cases error <;> rfl

private theorem modifyRun_touched {d : State} {f : Run → Run} (hf : ∀ r : Run, r.Touched (f r))
    (i : RunId) {r : Run} (hr : d.runs[id]? = some r) :
    ∃ r', (d.modifyRun i f).runs[id]? = some r' ∧ r.Touched r' := by
  refine ⟨_, by rw [State.modifyRun_run, hr]; rfl, ?_⟩
  split
  · exact hf r
  · exact .refl r

/-- A run that is there stays, touched at most. -/
theorem Serve.run (h : Serve s t) {r : Run} (hr : s.mem.runs[id]? = some r) :
    ∃ r', t.mem.runs[id]? = some r' ∧ r.Touched r' := by
  cases h with
  | stop => exact ⟨r, hr, .refl r⟩
  | cancel => exact ⟨r, by simpa using hr, .refl r⟩
  | source => exact ⟨r, by simpa using hr, .refl r⟩
  | session i r' d error =>
    rw [Shared.saveRequest_mem]
    exact modifyRun_touched (fun _ => ⟨_, _, _, _, _, rfl, fun _ _ h => h⟩) i hr
  | sessionLost i error =>
    rw [Shared.saveRequest_mem]
    exact modifyRun_touched (fun _ => ⟨_, _, _, _, _, rfl, fun _ _ h => h⟩) i hr
  | enrol job run key hash error hs hidle hsize hnew hkey hq hc hrun =>
    rw [Shared.enrol_mem, State.enqueue_run]
    split
    · next hid =>
        subst hid
        have hkeeps : ∀ (fid : FaultId) (f : Fault), r.faults[fid]? = some f →
            run.faults[fid]? = some f := fun _ _ hf => hrun.fault_keeps hr hf
        rcases hrun.new_or_next with ⟨-, hnew, -⟩ | ⟨r', -, hr', faults, timeline, rfl⟩
        · simp [hnew] at hr
        · cases hr.symm.trans hr'
          exact ⟨_, rfl, _, _, _, _, _, rfl, hkeeps⟩
    · exact ⟨r, hr, .refl r⟩

/-- A run after a request was there, or is new and being prepared; then all others are
destroyed. -/
theorem Serve.run_of (h : Serve s t) {r' : Run} (hr' : t.mem.runs[id]? = some r') :
    (∃ r, s.mem.runs[id]? = some r ∧ r.Touched r') ∨
    (s.mem.runs[id]? = none ∧
      (∀ (i : RunId) (r : Run), s.mem.runs[i]? = some r → r.state = .destroyed) ∧
      ∃ profile hash topology workloads policy,
        r' = { id, observationProfile := profile, topologyHash := hash, topology, workloads
               capturePolicy := policy
               captureCoverage := if topology.captureRequired then .pending else .unavailable }) := by
  cases hr : s.mem.runs[id]? with
  | some r =>
    obtain ⟨_, hr'', htouched⟩ := h.run hr
    cases hr''.symm.trans hr'
    exact .inl ⟨r, rfl, htouched⟩
  | none =>
    refine .inr ⟨rfl, ?_⟩
    cases h with
    | stop => simp [hr] at hr'
    | cancel => simp [hr] at hr'
    | source => simp [hr] at hr'
    | session => simp [State.modifyRun_run, hr] at hr'
    | sessionLost => simp [State.modifyRun_run, hr] at hr'
    | enrol job run key hash error hs hidle hsize hnew hkey hq hc hrun =>
      rw [Shared.enrol_mem, State.enqueue_run] at hr'
      split at hr'
      · next hid =>
          subst hid
          cases hr'
          cases hrun with
          | start topology profile hash workloads policy hop hrev hnew hall =>
            exact ⟨hall, profile, hash, topology, workloads, policy, rfl⟩
          | operate r hold => simp [hr] at hold
          | apply r f detail hold => simp [hr] at hold
          | remove r detail hold => simp [hr] at hold
      · simp [hr] at hr'

/-- A job that is there stays, but that its cancellation may be requested. -/
theorem Serve.job (h : Serve s t) {x : Job} (hx : s.mem.jobs[j]? = some x) :
    ∃ c, t.mem.jobs[j]? = some { x with cancelRequested := c } := by
  cases h with
  | stop => exact ⟨_, hx⟩
  | cancel i job error =>
    rw [Shared.saveRequest_mem, State.modifyJob_job, hx]
    by_cases hi : i = j
    · exact ⟨true, by simp [hi]⟩
    · exact ⟨_, by simp [hi]; rfl⟩
  | source => exact ⟨_, by simpa using hx⟩
  | session => exact ⟨_, by simpa using hx⟩
  | sessionLost => exact ⟨_, by simpa using hx⟩
  | enrol job run key hash error hs hidle hsize hnew =>
    have hne : job.id ≠ j := by
      rintro rfl
      simp [hnew] at hx
    exact ⟨_, by rw [Shared.enrol_mem, State.enqueue_job, if_neg hne, hx]⟩

/-- A job that has ended stays as it is. -/
theorem Serve.job_settled (h : Serve s t) {x : Job} (hx : s.mem.jobs[j]? = some x)
    (hp : x.pending = false) : t.mem.jobs[j]? = some x := by
  cases h with
  | stop => exact hx
  | cancel i job error hs hi hpending =>
    have hne : i ≠ j := by
      rintro rfl
      cases hi.symm.trans hx
      simp [hp] at hpending
    rw [Shared.saveRequest_mem, State.modifyJob_job, hx]
    simp [hne]
  | source => simpa using hx
  | session => simpa using hx
  | sessionLost => simpa using hx
  | enrol job run key hash error hs hidle hsize hnew =>
    have hne : job.id ≠ j := by
      rintro rfl
      simp [hnew] at hx
    rw [Shared.enrol_mem, State.enqueue_job, if_neg hne, hx]

/-- A job after a request was there, or it is new and queued; then nothing was pending. -/
theorem Serve.job_of (h : Serve s t) {x' : Job} (hx' : t.mem.jobs[j]? = some x') :
    (∃ x c, s.mem.jobs[j]? = some x ∧ x' = { x with cancelRequested := c }) ∨
    (s.mem.jobs[j]? = none ∧ s.mem.hasPending = false ∧ x'.state = .queued) := by
  cases hx : s.mem.jobs[j]? with
  | some x =>
    obtain ⟨c, hc⟩ := h.job hx
    exact .inl ⟨x, c, rfl, by simpa [hc] using hx'.symm⟩
  | none =>
    refine .inr ⟨rfl, ?_⟩
    cases h with
    | stop => simp [hx] at hx'
    | cancel => simp [State.modifyJob_job, hx] at hx'
    | source => simp [hx] at hx'
    | session => simp [hx] at hx'
    | sessionLost => simp [hx] at hx'
    | enrol job run key hash error hs hidle hsize hnew hkey hq =>
      rw [Shared.enrol_mem, State.enqueue_job] at hx'
      split at hx'
      · cases hx'
        exact ⟨hidle, hq⟩
      · simp [hx] at hx'

end

/-! ## Peeling admissions apart -/

private theorem bind_ok {α β : Type} {x : Except Failure α} {f : α → Except Failure β} {b : β} :
    (x >>= f) = .ok b ↔ ∃ a, x = .ok a ∧ f a = .ok b := by
  cases x <;> simp [bind, Except.bind]

private theorem guard_ok {α β : Type} {c : Prop} [Decidable c] {e : Failure}
    {f : α → Except Failure β} {y : Except Failure β} {b : β} :
    (if c then throw e >>= f else y) = .ok b ↔ ¬ c ∧ y = .ok b := by
  split <;> simp [*, bind, Except.bind, throw, throwThe, MonadExceptOf.throw]

private theorem throw_ok {α : Type} {e : Failure} {b : α} :
    (throw e : Except Failure α) = .ok b ↔ False := by
  simp [throw, throwThe, MonadExceptOf.throw]

private theorem pure_ok {α : Type} {a b : α} : (pure a : Except Failure α) = .ok b ↔ a = b := by
  simp [pure, Except.pure]

theorem boundJob_none {key hash : String} :
    boundJob mem key hash = .ok none ↔ mem.keys[key]? = none := by
  unfold boundJob
  cases mem.keys[key]? with
  | none => simp
  | some old =>
    by_cases h : old.hash = hash
    · cases hj : mem.jobs[old.jobId]? <;> simp [h, hj]
    · simp [h]

theorem boundJob_some {key hash : String} {job : Job} :
    boundJob mem key hash = .ok (some job) ↔
      ∃ old, mem.keys[key]? = some old ∧ old.hash = hash ∧ mem.jobs[old.jobId]? = some job := by
  unfold boundJob
  cases mem.keys[key]? with
  | none => simp
  | some old =>
    by_cases h : old.hash = hash
    · cases hj : mem.jobs[old.jobId]? <;> simp [h, hj]
    · simp [h]

/-- A lifecycle request is admitted exactly when its key is well formed and new, the
journal has room, nothing is pending, and its target accepts it. -/
theorem admitLifecycle_inr {l : Lifecycle} {mem' : State} {job : Job} :
    admitLifecycle site principal l draw mem = .ok (.inr (job, mem')) ↔
      validKey l.key = true ∧ mem.keys[principalKey principal l.key]? = none ∧
      mem.jobs.size < 256 ∧ mem.hasPending = false ∧
      ∃ (id : RunId) (run : Run) (operation : Operation),
        l.target site draw mem = .ok (id, run, operation) ∧
        job = { id := draw.jobId, runId := id, operation, revision := run.revision } ∧
        mem' = mem.enqueue run
          (principalKey principal l.key) (site.digest l.request) job := by
  unfold admitLifecycle
  simp only [bind_ok, guard_ok]
  constructor
  · rintro ⟨hkey, o, ho, h⟩
    cases o with
    | some => simp [pure_ok] at h
    | none =>
      simp only [guard_ok, bind_ok, pure_ok, Sum.inr.injEq, Prod.mk.injEq] at h
      obtain ⟨hsize, hp, ⟨id, run, operation⟩, ht, rfl, rfl⟩ := h
      exact ⟨by simpa using hkey, boundJob_none.1 ho, by omega, by simpa using hp,
        id, run, operation, ht, rfl, rfl⟩
  · rintro ⟨hkey, hnew, hsize, hp, id, run, operation, ht, rfl, rfl⟩
    refine ⟨by simp [hkey], none, boundJob_none.2 hnew, ?_⟩
    simp only [guard_ok, bind_ok, pure_ok]
    exact ⟨by omega, by simp [hp], _, ht, rfl⟩

theorem newRun_ok {p : StartParams} {r : Run} (h : newRun site p id mem = .ok r) :
    (∀ (id : RunId) (r : Run), mem.runs[id]? = some r → r.state = .destroyed) ∧
    ∃ topology profile workloads policy,
      r = { id, observationProfile := profile, topologyHash := p.topologyHash, topology,
            workloads, capturePolicy := policy
            captureCoverage := if topology.captureRequired then .pending else .unavailable } := by
  unfold newRun at h
  simp only [bind_ok, guard_ok] at h
  obtain ⟨profile, -, hidle, h⟩ := h
  refine ⟨fun id r hr => ?_, ?_⟩
  · simp only [List.any_eq_true, not_exists, not_and, Bool.not_eq_true] at hidle
    have := hidle (id, r) (TreeMap.mem_toList_iff_getElem?_eq_some.2 hr)
    simpa using this
  · cases hres : site.resolve p.topologyHash with
    | none => simp [hres, throw_ok] at h
    | some resolved =>
      simp only [hres, guard_ok, bind_ok, pure_ok] at h
      obtain ⟨-, policy, -, -, -, rfl⟩ := h
      exact ⟨resolved.topology, profile, resolved.workloads, policy, rfl⟩

/-- What `operate` checks on the run it names. -/
theorem operatedRun_ok {p : OperateParams} {run : Run} {operation : Operation} :
    operatedRun p mem = .ok (id, run, operation) ↔
      ∃ r, mem.runs[p.runId]? = some r ∧ p.expectedRevision = toString r.revision ∧
        operationOf p.operation = some operation ∧
        (operation = .stop → r.state = .ready ∨ r.state = .stopped) ∧
        (operation = .resume → r.state = .stopped) ∧ id = p.runId ∧ run = r.bump := by
  unfold operatedRun
  cases hr : mem.runs[p.runId]? with
  | none => simp [throw_ok]
  | some r =>
    cases ho : operationOf p.operation with
    | none => simp only [guard_ok, throw_ok]; simp
    | some =>
      simp only [guard_ok, pure_ok, Prod.mk.injEq, Option.some.injEq]
      constructor
      · rintro ⟨hrev, hstop, hresume, rfl, rfl, rfl⟩
        refine ⟨r, rfl, by simpa using hrev, rfl, fun h => ?_, fun h => ?_, rfl, rfl⟩
        · by_contra hne
          push Not at hne
          exact hstop (by simp [h, hne])
        · by_contra hne
          exact hresume (by simp [h, hne])
      · rintro ⟨_, rfl, hrev, rfl, hstop, hresume, rfl, rfl⟩
        refine ⟨by simp [hrev], fun h => ?_, fun h => ?_, rfl, rfl, rfl⟩
        · simp only [Bool.and_eq_true, beq_iff_eq, bne_iff_ne] at h
          rcases hstop h.1.1 with hs | hs
          · exact h.1.2 hs
          · exact h.2 hs
        · simp only [Bool.and_eq_true, beq_iff_eq, bne_iff_ne] at h
          exact h.2 (hresume h.1)

theorem operationOf_some {name : String} {operation : Operation}
    (h : operationOf name = some operation) :
    operation = .stop ∨ operation = .resume ∨ operation = .destroy ∨ operation = .recover := by
  unfold operationOf at h
  split at h <;> simp_all

/-- What a fault request checks on the run it names. -/
theorem target_ok {run run' : Run} {r : FaultRequest}
    (h : r.target clock draw run = .ok (fid, run')) :
    (∃ f, r.operation = .faultApply ∧ (run.state = .ready ∨ run.state = .stopped) ∧
      f.id = fid ∧ fid = draw.faultId ∧ f.state = .queued ∧ f.bootId = clock.boot ∧
      directionBusy run f = false ∧ run' = { run with faults := run.faults.insert fid f }) ∨
    (r.operation = .faultRemove ∧ run.faults.contains fid = true ∧ run' = run) := by
  cases r with
  | apply p =>
    simp only [FaultRequest.target, guard_ok, bind_ok] at h
    obtain ⟨hstate, -, f, hf, hbusy, h⟩ := h
    cases hplan : draw.planError with
    | some => simp [hplan, throw_ok] at h
    | none =>
      simp only [hplan, pure_ok, Prod.mk.injEq] at h
      obtain ⟨rfl, rfl⟩ := h
      have hvalid : f.id = draw.faultId ∧ f.state = .queued := by
        unfold validateFault at hf
        cases hd : directionOf p.fault.direction with
        | none => simp [hd, throw_ok] at hf
        | some =>
          simp only [hd, guard_ok, bind_ok, pure_ok] at hf
          obtain ⟨-, _, -, _, -, _, -, -, rfl⟩ := hf
          exact ⟨rfl, rfl⟩
      refine .inl ⟨{ f with placement := draw.placement, bootId := clock.boot }, rfl, ?_, rfl,
        hvalid.1, hvalid.2, rfl, ?_, rfl⟩
      · by_contra hne
        push Not at hne
        exact hstate (by simp [hne])
      · simpa [directionBusy] using hbusy
  | remove =>
    simp only [FaultRequest.target, guard_ok, pure_ok, Prod.mk.injEq] at h
    obtain ⟨hknown, rfl, rfl⟩ := h
    exact .inr ⟨rfl, by simpa using hknown, rfl⟩

/-- A fault request is admitted exactly when its run exists at the expected revision,
its key is well formed and new, nothing is pending, the journal has room, and its
target accepts it. -/
theorem admitFault_inr {r : FaultRequest} {mem' : State} {job : Job} :
    admitFault site principal r draw clock mem = .ok (.inr (job, mem')) ↔
      ∃ run, mem.runs[r.runId]? = some run ∧ validKey r.key = true ∧
      mem.keys[principalKey principal r.key]? = none ∧
      r.expectedRevision = toString run.revision ∧ mem.hasPending = false ∧
      mem.jobs.size < 256 ∧
      ∃ (fid : FaultId) (run' : Run), r.target clock draw run = .ok (fid, run') ∧
        job = { id := draw.jobId, runId := r.runId, operation := r.operation, faultId := fid,
                revision := run'.revision + 1 } ∧
        mem' = mem.enqueue
          (run'.bump.event clock "fault-admitted"
            (.fields [("faultId", fid), ("jobId", job.id), ("operation", r.operation.name)]))
          (principalKey principal r.key) (site.digest r.request) job := by
  unfold admitFault
  cases hr : mem.runs[r.runId]? with
  | none => simp [throw_ok]
  | some run =>
    simp only [guard_ok, bind_ok, Option.some.injEq]
    constructor
    · rintro ⟨hkey, o, ho, h⟩
      cases o with
      | some => simp [pure_ok] at h
      | none =>
        simp only [guard_ok, bind_ok, pure_ok, Sum.inr.injEq, Prod.mk.injEq] at h
        obtain ⟨hrev, hp, hsize, ⟨fid, run'⟩, ht, rfl, rfl⟩ := h
        exact ⟨run, rfl, by simpa using hkey, boundJob_none.1 ho, by simpa using hrev,
          by simpa using hp, by omega, fid, run', ht, rfl, rfl⟩
    · rintro ⟨_, rfl, hkey, hnew, hrev, hp, hsize, fid, run', ht, rfl, rfl⟩
      refine ⟨by simp [hkey], none, boundJob_none.2 hnew, ?_⟩
      simp only [guard_ok, bind_ok, pure_ok]
      exact ⟨by simp [hrev], by simp [hp], by omega, _, ht, rfl⟩

/-! ## Nothing else happens -/

private theorem fresh_iff (h : draw.fresh mem = true) :
    mem.runs[draw.runId]? = none ∧ mem.jobs[draw.jobId]? = none ∧
    ∀ (id : RunId) (r : Run), mem.runs[id]? = some r → r.faults[draw.faultId]? = none := by
  simp only [Draw.fresh, Bool.and_eq_true, Bool.not_eq_true', List.all_eq_true] at h
  refine ⟨TreeMap.getElem?_eq_none_of_contains_eq_false h.1.1,
    TreeMap.getElem?_eq_none_of_contains_eq_false h.1.2, fun id r hr => ?_⟩
  exact TreeMap.getElem?_eq_none_of_contains_eq_false
    (h.2 (id, r) (TreeMap.mem_toList_iff_getElem?_eq_some.2 hr))

theorem dispatchLifecycle_serve {l : Lifecycle} {s : Shared} (hs : s.stopping = false)
    (hfresh : draw.fresh s.mem = true) :
    Relation.ReflGen Serve s (dispatchLifecycle site principal l draw s).2 := by
  obtain ⟨hrun, hjob, -⟩ := fresh_iff hfresh
  unfold dispatchLifecycle
  cases h : admitLifecycle site principal l draw s.mem with
  | error => exact .refl
  | ok a =>
    cases a with
    | inl => exact .refl
    | inr a =>
      obtain ⟨_, _⟩ := a
      obtain ⟨-, hkey, hsize, hp, id, run, operation, ht, rfl, rfl⟩ := admitLifecycle_inr.1 h
      refine .single (.enrol s
        { id := draw.jobId, runId := id, operation, revision := run.revision }
        run _ _ draw.saveError hs hp hsize hjob hkey rfl rfl ?_)
      cases l with
      | start =>
        simp only [Lifecycle.target, bind_ok, pure_ok, Prod.mk.injEq] at ht
        obtain ⟨r, hr, rfl, rfl, rfl⟩ := ht
        obtain ⟨hidle, topology, profile, workloads, policy, rfl⟩ := newRun_ok hr
        exact .start topology profile _ workloads policy rfl rfl hrun hidle
      | operate =>
        obtain ⟨r, hr, -, ho, hstop, hresume, rfl, rfl⟩ := operatedRun_ok.1 ht
        refine .operate r hr rfl ?_
        rcases operationOf_some ho with rfl | rfl | rfl | rfl
        · exact .inl ⟨rfl, hstop rfl⟩
        · exact .inr (.inl ⟨rfl, hresume rfl⟩)
        · exact .inr (.inr (.inl rfl))
        · exact .inr (.inr (.inr rfl))

theorem dispatchFault_serve {r : FaultRequest} {s : Shared} (hs : s.stopping = false)
    (hfresh : draw.fresh s.mem = true) :
    Relation.ReflGen Serve s (dispatchFault site principal r draw s).2 := by
  obtain ⟨-, hjob, hfault⟩ := fresh_iff hfresh
  unfold dispatchFault
  cases h : admitFault site principal r draw s.clock s.mem with
  | error => exact .refl
  | ok a =>
    cases a with
    | inl => exact .refl
    | inr a =>
      obtain ⟨_, _⟩ := a
      obtain ⟨run, hr, -, hkey, -, hp, hsize, fid, run', ht, rfl, rfl⟩ := admitFault_inr.1 h
      refine .single (.enrol s
        { id := draw.jobId, runId := r.runId, operation := r.operation, faultId := fid,
          revision := run'.revision + 1 }
        _ _ _ draw.saveError hs hp hsize hjob hkey rfl rfl ?_)
      rcases target_ok ht with ⟨f, hop, hstate, hid, rfl, hq, hboot, hbusy, rfl⟩ |
        ⟨hop, hknown, rfl⟩
      · exact .apply run f _ hr rfl hop hstate hid (hfault _ run hr) hq hboot hbusy
      · exact .remove run' _ hr rfl hop hknown

theorem dispatchCancel_serve {id : JobId} {s : Shared} (hs : s.stopping = false) :
    Relation.ReflGen Serve s (dispatchCancel id draw s).2 := by
  unfold dispatchCancel
  cases hj : s.mem.jobs[id]? with
  | none => exact .refl
  | some job =>
    dsimp only
    split
    · exact .refl
    · next hp =>
        split
        · exact .refl
        · exact .single (.cancel s id job draw.saveError hs hj (by simpa using hp))

theorem launchSession_serve {s : Shared} (hs : s.stopping = false)
    (hp : s.mem.hasPending = false) : ServedQuietly s (launchSession id draw s).2 := by
  unfold launchSession
  cases draw.launchError with
  | none => exact .refl
  | some =>
    cases draw.stopError with
    | none => exact .refl
    | some => exact .single ⟨.sessionLost s id draw.resaveError hs hp, by simp⟩

theorem dispatchTerminalOpen_serve {p : OpenParams} {s : Shared}
    (hs : s.stopping = false) : ServedQuietly s (dispatchTerminalOpen p draw s).2 := by
  unfold dispatchTerminalOpen
  cases hr : s.mem.runs[p.runId]? with
  | none => exact .refl
  | some run =>
    dsimp only
    split
    · exact .refl
    next hstate =>
    split
    · exact .refl
    next hp =>
    split
    · exact .refl
    split
    · exact .refl
    · exact .refl
    have hp : s.mem.hasPending = false := by simpa using hp
    have hstate : run.state = .ready ∨ run.state = .stopped := by
      by_contra hne
      push Not at hne
      exact hstate (by simp [hne])
    have hopen := Serve.session s p.runId run draw.session draw.saveError hs hp hr hstate
    cases hsave : draw.saveError with
    | some => rw [hsave] at hopen; exact .single ⟨hopen, rfl⟩
    | none =>
      rw [hsave] at hopen
      exact .trans (.single ⟨hopen, rfl⟩) (launchSession_serve hs hp)

/-- What the checks of `admitCommand` leave: nothing is pending, no command of the same
source waits, and there is room. -/
theorem admitCommand_ok {p : SourceRequest} {run : Run} {u : Unit}
    (h : admitCommand p draw mem run = .ok u) :
    mem.hasPending = false ∧ commandPending mem p = false ∧ pendingCommands mem < 8 := by
  unfold admitCommand at h
  simp only [guard_ok] at h
  cases hres : SourceControl.resource run p.node with
  | none => simp [hres, throw_ok] at h
  | some =>
    simp only [hres, guard_ok, Bool.or_eq_true, decide_eq_true_eq, not_or, not_le] at h
    exact ⟨by simpa using h.2.2.2.1, by simpa using h.2.2.2.2.1, h.2.2.2.2.2.1.1⟩

theorem dispatchSource_serve {p : SourceRequest} {s : Shared} (hs : s.stopping = false) :
    Relation.ReflGen Serve s (dispatchSource site principal p draw s).2 := by
  unfold dispatchSource
  split
  · exact .refl
  cases hr : s.mem.runs[p.runId]? with
  | none => exact .refl
  | some run =>
    dsimp only
    cases hc : s.mem.sourceCommands[site.sourceKey principal p.requestId]? with
    | some => dsimp only; split <;> exact .refl
    | none =>
      dsimp only
      cases ha : admitCommand p draw s.mem run with
      | error => exact .refl
      | ok =>
        exact .single (.source s _ _ draw.saveError hs (admitCommand_ok ha).1 hc)

/-- **Nothing else happens**: an arrival makes one change of `Serve`, or changes that
admit no job, or none. -/
theorem arrive_cases (site : Site) (a : Arrival) (s : Shared) :
    Relation.ReflGen Serve s (arrive site a s) ∨ ServedQuietly s (arrive site a s) := by
  cases a with
  | shutdown => exact .inl (.single (.stop s))
  | client principal request draw =>
    unfold arrive
    dsimp only
    split
    · next hfresh =>
        unfold dispatch
        split
        · exact .inl .refl
        next hs =>
        have hs : s.stopping = false := by simpa using hs
        cases request with
        | start => exact .inl (dispatchLifecycle_serve hs hfresh)
        | operate => exact .inl (dispatchLifecycle_serve hs hfresh)
        | cancel => exact .inl (dispatchCancel_serve hs)
        | faultApply => exact .inl (dispatchFault_serve hs hfresh)
        | faultRemove => exact .inl (dispatchFault_serve hs hfresh)
        | terminalOpen => exact .inr (dispatchTerminalOpen_serve hs)
        | sourceCommand => exact .inl (dispatchSource_serve hs)
    · exact .inl .refl

theorem arrive_serve (site : Site) (a : Arrival) (s : Shared) : Served s (arrive site a s) := by
  rcases arrive_cases site a s with h | h
  · exact h.to_reflTransGen
  · exact Relation.ReflTransGen.mono (fun _ _ h => h.1) _ _ h

end Graphlab.Runtime
