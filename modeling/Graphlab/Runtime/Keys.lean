import Graphlab.Runtime.Outline
import Mathlib.Logic.Equiv.List
import Mathlib.Tactic.DeriveEncodable

/-!
# Idempotency keys and revisions

Two dispatchers admit jobs, and both bind the job to the principal's key and to the
digest of the request.  The binding is never changed, and neither are the fields of the
job that a retry is answered from; so a retry is answered as the request was, and any
other payload under the key is a conflict.

Admission moves the run to its next revision and stamps the job with it, and nothing
ever moves a run back, so the revisions of the jobs of a run are distinct.

## Main definitions

* `admission`, `concluded` — both dispatchers in one form; `dispatch_eq`.
* `Synced`, `Stamped` — the invariants.
* `idempotent_admission` — keys and revisions, of every reachable state.
-/

namespace Graphlab.Runtime

open Std (TreeMap)
open Lib Supervised

variable {s t : Shared}

/-! ## The two dispatchers -/

namespace Request

/-- The idempotency key of a request that asks for a job. -/
def idempotencyKey : Request → Option String
  | .start p => some p.idempotencyKey
  | .operate p => some p.idempotencyKey
  | .faultApply p => some p.idempotencyKey
  | .faultRemove p => some p.idempotencyKey
  | _ => none

/-- The run a request is about, and the revision it expects there. -/
def expects : Request → Option (RunId × String)
  | .operate p => some (p.runId, p.expectedRevision)
  | .faultApply p => some (p.runId, p.expectedRevision)
  | .faultRemove p => some (p.runId, p.expectedRevision)
  | _ => none

/-- The answer of a request that is bound to a job. -/
def response (job : Job) : Request → Response
  | .faultApply p => .acceptedFault job.id p.runId job.faultId job.revision
  | .faultRemove p => .acceptedFault job.id p.runId job.faultId job.revision
  | _ => .accepted job.id job.runId job.revision

end Request

/-- The job a request is admitted as, or an earlier one. -/
def admission (site : Site) (principal : ℕ) (request : Request) (draw : Draw) (clock : Clock)
    (mem : State) : Except Failure (Job ⊕ (Job × State)) :=
  match request with
  | .start p => admitLifecycle site principal (.start p) draw mem
  | .operate p => admitLifecycle site principal (.operate p) draw mem
  | .faultApply p => admitFault site principal (.apply p) draw clock mem
  | .faultRemove p => admitFault site principal (.remove p) draw clock mem
  | _ => .error default

/-- What becomes of a request once its admission is decided. -/
def concluded (request : Request) (draw : Draw) (s : Shared) :
    Except Failure (Job ⊕ (Job × State)) → Except Failure Response × Shared
  | .error e => (.error e, s)
  | .ok (.inl job) => (.ok (request.response job), s)
  | .ok (.inr (job, mem)) =>
    (answer draw.saveError (request.response job), s.enrol mem job.id draw.saveError)

theorem dispatch_eq {site : Site} {principal : ℕ} {request : Request} {draw : Draw} {key : String}
    (hs : s.stopping = false) (hkey : request.idempotencyKey = some key) :
    dispatch site principal request draw s =
      concluded request draw s (admission site principal request draw s.clock s.mem) := by
  simp only [dispatch, hs, Bool.false_eq_true, if_false]
  cases request with
  | start =>
    simp only [dispatchLifecycle, admission]
    split <;> simp [concluded, Request.response, *]
  | operate =>
    simp only [dispatchLifecycle, admission]
    split <;> simp [concluded, Request.response, *]
  | faultApply =>
    simp only [dispatchFault, admission]
    split <;> simp [concluded, Request.response, FaultRequest.runId, *]
  | faultRemove =>
    simp only [dispatchFault, admission]
    split <;> simp [concluded, Request.response, FaultRequest.runId, *]
  | _ => cases hkey

variable {run : Run} {ph : Phase} {o : Op} {x : Job} {id : RunId} {j : JobId}

section

variable {site : Site} {principal : ℕ} {request : Request} {draw : Draw} {clock : Clock}
  {mem mem' : State} {key : String} {job : Job} {old : Binding}

theorem boundJob_conflict (hold : mem.keys[key]? = some old) {hash : String}
    (hne : old.hash ≠ hash) :
    boundJob mem key hash = .error ⟨"idempotency_conflict", 409⟩ := by
  simp [boundJob, hold, hne]

variable {b : Except Failure Job}

/-- Under a known key a lifecycle request is decided by the binding. -/
theorem admitLifecycle_known {l : Lifecycle} (hvalid : validKey l.key = true)
    (h : boundJob mem (principalKey principal l.key) (site.digest l.request) = b.map some) :
    admitLifecycle site principal l draw mem = b.map .inl := by
  cases b <;> simp only [admitLifecycle, hvalid, h] <;> rfl

/-- Under a known key a fault request on a known run is decided by the binding. -/
theorem admitFault_known {r : FaultRequest} (hrun : mem.runs[r.runId]? = some run)
    (hvalid : validKey r.key = true)
    (h : boundJob mem (principalKey principal r.key) (site.digest r.request) = b.map some) :
    admitFault site principal r draw clock mem = b.map .inl := by
  cases b <;> simp only [admitFault, hrun, hvalid, h] <;> rfl

theorem admitFault_unknown {r : FaultRequest} (hrun : mem.runs[r.runId]? = none) :
    admitFault site principal r draw clock mem = .error ⟨"not_found", 404⟩ := by
  simp only [admitFault, hrun]
  rfl

/-- Under a known key, a request on a known run is decided by the binding. -/
theorem admission_known (hkey : request.idempotencyKey = some key) (hvalid : validKey key = true)
    (h : boundJob mem (principalKey principal key) (site.digest request) = b.map some)
    (hrun : ∀ id rev, request.expects = some (id, rev) → mem.runs[id]? ≠ none) :
    admission site principal request draw clock mem = b.map .inl := by
  cases request with
  | start p =>
    cases hkey
    exact admitLifecycle_known (l := .start p) hvalid h
  | operate p =>
    cases hkey
    exact admitLifecycle_known (l := .operate p) hvalid h
  | faultApply p =>
    cases hkey
    obtain ⟨run, hrun⟩ := Option.ne_none_iff_exists'.1 (hrun _ _ rfl)
    exact admitFault_known (r := .apply p) hrun hvalid h
  | faultRemove p =>
    cases hkey
    obtain ⟨_, hrun⟩ := Option.ne_none_iff_exists'.1 (hrun _ _ rfl)
    exact admitFault_known (r := .remove p) hrun hvalid h
  | _ => cases hkey

/-- Another payload under a known key is refused. -/
theorem admission_conflict (hkey : request.idempotencyKey = some key)
    (hvalid : validKey key = true) (hold : mem.keys[principalKey principal key]? = some old)
    (hhash : old.hash ≠ site.digest request) :
    ∃ e, admission site principal request draw clock mem = .error e := by
  have hbound := boundJob_conflict hold hhash
  by_cases hrun : ∀ id rev, request.expects = some (id, rev) → mem.runs[id]? ≠ none
  · exact ⟨_, admission_known (b := .error _) hkey hvalid hbound hrun⟩
  · push Not at hrun
    obtain ⟨_, _, hexp, hrun⟩ := hrun
    cases request with
    | operate p =>
      cases hkey
      exact ⟨_, admitLifecycle_known (l := .operate p) (b := .error _) hvalid hbound⟩
    | faultApply p =>
      cases hexp
      exact ⟨_, admitFault_unknown (r := .apply p) hrun⟩
    | faultRemove p =>
      cases hexp
      exact ⟨_, admitFault_unknown (r := .remove p) hrun⟩
    | _ => cases hexp

/-- What is checked of a request that is admitted, and what it is admitted as. -/
structure AdmittedAs (site : Site) (principal : ℕ) (request : Request) (draw : Draw)
    (mem : State) (key : String) (job : Job) (run : Run) : Prop where
  valid : validKey key = true
  new : mem.keys[principalKey principal key]? = none
  id_eq : job.id = draw.jobId
  revision : job.revision = run.revision
  next : ∀ id rev, request.expects = some (id, rev) → job.runId = id ∧
    ∃ r, mem.runs[id]? = some r ∧ rev = toString r.revision ∧ run.revision = r.revision + 1

theorem admission_inr (hkey : request.idempotencyKey = some key)
    (h : admission site principal request draw clock mem = .ok (.inr (job, mem'))) :
    ∃ run, AdmittedAs site principal request draw mem key job run ∧
      mem' = mem.enqueue run (principalKey principal key) (site.digest request) job := by
  have hfault : ∀ r : FaultRequest, r.request = request → r.key = key →
      request.expects = some (r.runId, r.expectedRevision) →
      admitFault site principal r draw clock mem = .ok (.inr (job, mem')) →
      ∃ run, AdmittedAs site principal request draw mem key job run ∧
        mem' = mem.enqueue run (principalKey principal key) (site.digest request) job := by
    rintro r rfl rfl hexp h
    obtain ⟨run, hrun, hvalid, hnew, hrev, -, -, _, run', ht, rfl, rfl⟩ := admitFault_inr.1 h
    have hsame : run'.revision = run.revision := by
      rcases target_ok ht with ⟨f, -, -, -, -, -, -, -, rfl⟩ | ⟨-, -, rfl⟩ <;> rfl
    refine ⟨_, ⟨hvalid, hnew, rfl, rfl, fun id rev he => ?_⟩, rfl⟩
    cases hexp.symm.trans he
    exact ⟨rfl, run, hrun, hrev, congrArg (· + 1) hsame⟩
  cases request with
  | start =>
    cases hkey
    obtain ⟨hvalid, hnew, -, -, id, run, operation, -, rfl, rfl⟩ := admitLifecycle_inr.1 h
    exact ⟨run, ⟨hvalid, hnew, rfl, rfl, fun _ _ he => by cases he⟩, rfl⟩
  | operate =>
    cases hkey
    obtain ⟨hvalid, hnew, -, -, id, run, _, ht, rfl, rfl⟩ := admitLifecycle_inr.1 h
    refine ⟨run, ⟨hvalid, hnew, rfl, rfl, fun id rev he => ?_⟩, rfl⟩
    obtain ⟨r, hr, hrev, -, -, -, rfl, rfl⟩ := operatedRun_ok.1 ht
    cases he
    exact ⟨rfl, r, hr, hrev, rfl⟩
  | faultApply p =>
    cases hkey
    exact hfault (.apply p) rfl rfl rfl h
  | faultRemove p =>
    cases hkey
    exact hfault (.remove p) rfl rfl rfl h
  | _ => cases hkey

end

/-! ## Keys and revisions in step -/

/-- While the agent serves, memory and journal have the same keys. -/
def Synced (s : Shared) : Prop := s.stopping = false → s.mem.keys = s.journal.keys

theorem Synced.of_saved (h : t.journal = t.mem ∨ t.stopping = true) : Synced t := by
  intro hs
  rcases h with hj | hstop
  · rw [hj]
  · simp [hs] at hstop

theorem Synced.does (h : Synced s) (hst : Does ph s o t) : Synced t := by
  cases hst with
  | wait => exact h
  | call => exact h
  | commit => exact .of_saved (.inl rfl)
  | take => exact .of_saved (.inl rfl)
  | failCommit => exact .of_saved (.inr rfl)
  | failTake => exact .of_saved (.inr rfl)
  | update => exact fun hs => (Write.apply_keys ..).trans (h hs)

theorem Reached.synced {site : Site} {ok : StepCondition} {c : Agent} (h : Reaches site ok c) :
    Synced c.state ∧ InStep Run.revision c.state := by
  refine ⟨Reached.invariant (J := Synced) (.of_saved (.inl rfl))
    (fun _ _ _ hst _ => .of_saved hst.saved) (fun _ _ _ _ _ hst h => h.does hst)
    (fun _ _ _ _ => .of_saved (.inl rfl)) h, Reached.inStep (fun id w clock r hw => ?_) h⟩
  rw [RunWrite.apply_revision]
  cases w <;> first | rfl | simp [Write.light, Write.unsaved] at hw

/-! ## Bindings stay -/

theorem Serve.key (hst : Serve s t) {k : String} {b : Binding} (h : s.mem.keys[k]? = some b) :
    t.mem.keys[k]? = some b := by
  cases hst with
  | stop => exact h
  | cancel j job error => cases error <;> exact h
  | session id r d error => cases error <;> exact h
  | sessionLost id error => cases error <;> exact h
  | source key c error => cases error <;> exact h
  | enrol job run key hash error hs hidle hsize hnew hkey =>
    have hne : key ≠ k := by
      rintro rfl
      simp [hkey] at h
    rw [Shared.enrol_mem]
    simp only [State.enqueue, TreeMap.getElem?_insert, Std.LawfulEqCmp.compare_eq_iff_eq,
      if_neg hne, h]

theorem Does.key (hst : Does ph s o t) {k : String} {b : Binding}
    (h : s.mem.keys[k]? = some b) : t.mem.keys[k]? = some b := by
  refine hst.mem_of (P := fun d => d.keys[k]? = some b) h (fun w clock _ => ?_) fun _ _ _ _ => h
  rw [Write.apply_keys, h]

/-- The document has the job, with what a retry is answered from. -/
def State.HasJob (d : State) (x : Job) : Prop :=
  ∃ y, d.jobs[x.id]? = some y ∧ y.id = x.id ∧ y.runId = x.runId ∧ y.faultId = x.faultId ∧
    y.revision = x.revision

theorem Serve.hasJob (hst : Serve s t) (h : s.mem.HasJob x) : t.mem.HasJob x := by
  obtain ⟨_, hy, h⟩ := h
  obtain ⟨_, hc⟩ := hst.job hy
  exact ⟨_, hc, h⟩

theorem Does.hasJob (hst : Does ph s o t) (h : s.mem.HasJob x) : t.mem.HasJob x := by
  refine hst.mem_of (P := fun d => d.HasJob x) h (fun w clock _ => ?_) fun i _ _ _ => ?_
  · obtain ⟨y, hy, hid, hrun, hfault, hrev⟩ := h
    obtain ⟨y', hy', he⟩ := @Write.job_apply clock s.mem w _ _ hy
    obtain ⟨hid', hrun', -, hfault', hrev'⟩ := he.core_eq
    exact ⟨y', hy', hid'.trans hid, hrun'.trans hrun, hfault'.trans hfault, hrev'.trans hrev⟩
  · obtain ⟨_, hy, h⟩ := h
    refine ⟨_, by rw [State.modifyJob_job, hy]; rfl, ?_⟩
    split <;> exact h

/-! ## Revisions -/

/-- The run is at revision `n` or later. -/
def State.AtLeast (d : State) (id : RunId) (n : ℕ) : Prop :=
  ∃ r, d.runs[id]? = some r ∧ n ≤ r.revision

theorem Write.atLeast_apply {w : Write} {clock : Clock} {d : State} {n : ℕ}
    (h : d.AtLeast id n) : (w.apply clock d).AtLeast id n := by
  obtain ⟨r, hr, hn⟩ := h
  obtain ⟨r', hr', he⟩ := @run_apply clock d w id r hr
  exact ⟨r', hr', hn.trans he.revision_le⟩

theorem Does.atLeast (hst : Does ph s o t) {n : ℕ}
    (h : s.mem.AtLeast id n) : t.mem.AtLeast id n :=
  hst.mem_of (P := fun d => d.AtLeast id n) h (fun _ _ _ => Write.atLeast_apply h)
    fun _ _ _ _ => h

theorem Admits.revision_lt {clock : Clock} {mem : State} {job : Job} {r : Run}
    (h : Admits clock mem job run) (hr : mem.runs[job.runId]? = some r) :
    job.revision = run.revision ∧ run.revision = r.revision + 1 := by
  cases h with
  | start topology profile hash workloads policy hop hrev hnew => simp [hnew] at hr
  | operate r' hr' hrev =>
    cases hr.symm.trans hr'
    exact ⟨hrev, rfl⟩
  | apply r' f detail hr' hrev =>
    cases hr.symm.trans hr'
    exact ⟨hrev, rfl⟩
  | remove r' detail hr' hrev =>
    cases hr.symm.trans hr'
    exact ⟨hrev, rfl⟩

theorem State.atLeast_modifyRun {d : State} {i : RunId} {n : ℕ} {f : Run → Run}
    (hf : ∀ r, (f r).revision = r.revision) (h : d.AtLeast id n) :
    (d.modifyRun i f).AtLeast id n := by
  obtain ⟨_, hr, hn⟩ := h
  refine ⟨_, by rw [State.modifyRun_run, hr]; rfl, ?_⟩
  split
  · rw [hf]; exact hn
  · exact hn

theorem Serve.atLeast (hst : Serve s t) {n : ℕ} (h : s.mem.AtLeast id n) : t.mem.AtLeast id n := by
  cases hst with
  | stop => exact h
  | cancel j job error => cases error <;> exact h
  | source key c error => cases error <;> exact h
  | session =>
    rw [Shared.saveRequest_mem]
    exact State.atLeast_modifyRun (fun _ => rfl) h
  | sessionLost =>
    rw [Shared.saveRequest_mem]
    exact State.atLeast_modifyRun (fun _ => rfl) h
  | enrol job run key hash error hs hidle hsize hnew hkey hq hc hrun =>
    obtain ⟨r, hr, hn⟩ := h
    rw [Shared.enrol_mem]
    by_cases hid : job.runId = id
    · subst hid
      refine ⟨run, by simp [State.enqueue_run], ?_⟩
      have := (hrun.revision_lt hr).2
      omega
    · exact ⟨r, by simp [State.enqueue_run, hid, hr], hn⟩

/-- Each job has a revision its run has reached, and no two jobs of a run have the same. -/
structure State.Stamped (d : State) : Prop where
  reached : ∀ {j : JobId} {x : Job}, d.jobs[j]? = some x → d.AtLeast x.runId x.revision
  distinct : ∀ {i j : JobId} {x y : Job}, d.jobs[i]? = some x → d.jobs[j]? = some y →
    x.runId = y.runId → x.revision = y.revision → i = j

/-- Jobs keep their stamps and runs do not go back. -/
theorem State.Stamped.of_keeps {d d' : State} (h : d.Stamped)
    (hjobs : ∀ (j : JobId) (x' : Job), d'.jobs[j]? = some x' →
      ∃ x, d.jobs[j]? = some x ∧ x'.runId = x.runId ∧ x'.revision = x.revision)
    (hruns : ∀ (id : RunId) (n : ℕ), d.AtLeast id n → d'.AtLeast id n) : d'.Stamped where
  reached {j x'} hx' := by
    obtain ⟨x, hx, hrun, hrev⟩ := hjobs j x' hx'
    rw [hrun, hrev]
    exact hruns _ _ (h.reached hx)
  distinct {i j x' y'} hx' hy' hrun hrev := by
    obtain ⟨_, hx, hxrun, hxrev⟩ := hjobs i x' hx'
    obtain ⟨_, hy, hyrun, hyrev⟩ := hjobs j y' hy'
    exact h.distinct hx hy (by rw [← hxrun, ← hyrun, hrun]) (by rw [← hxrev, ← hyrev, hrev])

theorem State.Stamped.does (h : s.mem.Stamped) (hst : Does ph s o t) : t.mem.Stamped := by
  refine hst.mem_of h (fun w clock _ => ?_) fun i _ _ _ => ?_
  · refine h.of_keeps (fun j x' hx' => ?_) fun _ _ => Write.atLeast_apply
    obtain ⟨x, hx, he⟩ := Write.job_of_apply hx'
    obtain ⟨-, hrun, -, -, hrev⟩ := he.core_eq
    exact ⟨x, hx, hrun, hrev⟩
  · refine h.of_keeps (fun j x' hx' => ?_) fun _ _ h => h
    rw [State.modifyJob_job, Option.map_eq_some_iff] at hx'
    obtain ⟨x, hx, rfl⟩ := hx'
    refine ⟨x, hx, ?_⟩
    split <;> exact ⟨rfl, rfl⟩

/-- A job that is admitted is stamped beyond the jobs its run has. -/
theorem Admits.stamp_new {clock : Clock} {mem : State} {job : Job} (h : Admits clock mem job run)
    (hmem : mem.Stamped) (hx : mem.jobs[j]? = some x)
    (hrun : x.runId = job.runId) : x.revision < job.revision := by
  obtain ⟨_, hr, _⟩ := hmem.reached hx
  rw [hrun] at hr
  obtain ⟨_, _⟩ := h.revision_lt hr
  omega

theorem Admits.stamp {clock : Clock} {mem : State} {job : Job}
    (h : Admits clock mem job run) : job.revision = run.revision := by
  cases h with
  | start topology profile hash workloads policy hop hrev => exact hrev
  | operate r hr hrev => exact hrev
  | apply r f detail hr hrev => exact hrev
  | remove r detail hr hrev => exact hrev

theorem State.Stamped.serve (h : s.mem.Stamped) (hst : Serve s t) : t.mem.Stamped := by
  have hmono := fun (id : RunId) (n : ℕ) => @Serve.atLeast s t id hst n
  have hsame : t.mem.jobs = s.mem.jobs → t.mem.Stamped := fun heq =>
    h.of_keeps (fun j x hx => ⟨x, heq ▸ hx, rfl, rfl⟩) hmono
  cases hst with
  | stop => exact h
  | session => exact hsame (by rw [Shared.saveRequest_mem]; rfl)
  | sessionLost => exact hsame (by rw [Shared.saveRequest_mem]; rfl)
  | source => exact hsame (by rw [Shared.saveRequest_mem])
  | cancel =>
    refine h.of_keeps (fun j x' hx' => ?_) hmono
    rw [Shared.saveRequest_mem, State.modifyJob_job, Option.map_eq_some_iff] at hx'
    obtain ⟨x, hx, rfl⟩ := hx'
    refine ⟨x, hx, ?_⟩
    split <;> exact ⟨rfl, rfl⟩
  | enrol job run key hash error hs hidle hsize hnew hkey hq hc hrun =>
    rw [Shared.enrol_mem] at hmono ⊢
    refine ⟨fun {j x'} hx' => ?_, fun {i j x' y'} hx' hy' hid hrev => ?_⟩
    · rw [State.enqueue_job] at hx'
      split at hx'
      · cases hx'
        exact ⟨run, by simp [State.enqueue_run], hrun.stamp.le⟩
      · exact hmono _ _ (h.reached hx')
    · rw [State.enqueue_job] at hx' hy'
      split at hx' <;> split at hy'
      · next hi hj => exact hi.symm.trans hj
      · cases hx'
        have := hrun.stamp_new h hy' hid.symm
        omega
      · cases hy'
        have := hrun.stamp_new h hx' hid
        omega
      · exact h.distinct hx' hy' hid hrev

theorem Reached.stamped {site : Site} {ok : StepCondition} {c : Agent} (h : Reaches site ok c) :
    c.state.mem.Stamped ∧ c.state.journal.Stamped :=
  Reached.both (P := State.Stamped) ⟨by simp, by simp⟩ (fun _ _ _ hst h => h.serve hst)
    (fun _ _ _ _ _ hst h => h.does hst) h

/-! ## Admission -/

section

variable {site : Site} {principal : ℕ} {request : Request} {draw : Draw}

theorem Shared.saveRequest_journal_job {mem : State} {error : Option String}
    (hmem : mem.jobs[j]? = none) (hjournal : s.journal.jobs[j]? = none) :
    (s.saveRequest mem error).journal.jobs[j]? = none := by
  cases error with
  | none => exact hmem
  | some => exact hjournal

/-- A request without a key adds no job. -/
theorem dispatch_keyless (hkey : request.idempotencyKey = none) (hmem : s.mem.jobs[j]? = none)
    (hjournal : s.journal.jobs[j]? = none) :
    (dispatch site principal request draw s).2.journal.jobs[j]? = none := by
  unfold dispatch
  split
  · exact hjournal
  next hs =>
  cases request with
  | cancel =>
    simp only [dispatchCancel]
    split
    · exact hjournal
    · split
      · exact hjournal
      · split
        · exact hjournal
        · exact Shared.saveRequest_journal_job (by simp [State.modifyJob_job, hmem]) hjournal
  | sourceCommand =>
    simp only [dispatchSource]
    repeat' split
    all_goals first
      | exact hjournal
      | exact Shared.saveRequest_journal_job hmem hjournal
  | terminalOpen p =>
    have hquiet := @dispatchTerminalOpen_serve draw p s (by simpa using hs)
    generalize (dispatchTerminalOpen p draw s).2 = t at hquiet
    refine (?_ : t.mem.jobs[j]? = none ∧ t.journal.jobs[j]? = none).2
    induction hquiet with
    | refl => exact ⟨hmem, hjournal⟩
    | tail _ hst ih =>
      have hmem := hst.2 ▸ ih.1
      exact both_of_saved (P := fun d => d.jobs[j]? = none) hmem ih.2 hst.1.journal_eq
  | _ => cases hkey

/-- A request that adds a job to the journal was admitted as that job. -/
theorem dispatch_admits (hinv : Inv s) (hnew : s.journal.jobs[j]? = none)
    (hx : (dispatch site principal request draw s).2.journal.jobs[j]? = some x) :
    s.stopping = false ∧ x.id = j ∧
    (dispatch site principal request draw s).1 = .ok (request.response x) ∧
    ∃ key run, request.idempotencyKey = some key ∧
      AdmittedAs site principal request draw s.mem key x run ∧
      (dispatch site principal request draw s).2.journal =
        s.mem.enqueue run (principalKey principal key) (site.digest request) x := by
  have hs : s.stopping = false := by
    by_contra hs
    rw [Bool.not_eq_false] at hs
    simp [dispatch, hs, hnew] at hx
  have hmem : s.mem.jobs[j]? = none := by rw [hinv.jobs hs]; exact hnew
  refine ⟨hs, ?_⟩
  cases hkey : request.idempotencyKey with
  | none => simp [dispatch_keyless hkey hmem hnew] at hx
  | some key =>
    rw [dispatch_eq hs hkey] at hx ⊢
    cases ha : admission site principal request draw s.clock s.mem with
    | error => simp [ha, concluded, hnew] at hx
    | ok a =>
      cases a with
      | inl => simp [ha, concluded, hnew] at hx
      | inr a =>
        obtain ⟨job, _⟩ := a
        obtain ⟨run, hadmitted, rfl⟩ := admission_inr hkey ha
        simp only [ha, concluded] at hx ⊢
        cases herror : draw.saveError with
        | some => simp [herror, Shared.enrol, hnew] at hx
        | none =>
          simp only [herror, Shared.enrol, State.enqueue_job] at hx ⊢
          split at hx
          · cases hx
            exact ⟨‹_›, rfl, key, run, rfl, hadmitted, rfl⟩
          · simp [hmem] at hx

/-- A retry is answered as the request was. -/
theorem dispatch_retry {key : String} (hs : s.stopping = false)
    (hkey : request.idempotencyKey = some key) (hvalid : validKey key = true)
    (hold : s.mem.keys[principalKey principal key]? =
      some { hash := site.digest request, jobId := x.id }) (hjob : s.mem.HasJob x)
    (hrun : ∀ id rev, request.expects = some (id, rev) → s.mem.runs[id]? ≠ none) :
    dispatch site principal request draw s = (.ok (request.response x), s) := by
  obtain ⟨y, hy, hid, hyrun, hfault, hrev⟩ := hjob
  have hbound := boundJob_some.2 ⟨_, hold, rfl, hy⟩
  rw [dispatch_eq hs hkey, admission_known (b := .ok y) hkey hvalid hbound hrun]
  have hresponse : request.response y = request.response x := by
    cases request <;> simp [Request.response, hid, hyrun, hfault, hrev]
  exact congrArg (fun r => (Except.ok r, s)) hresponse

/-- Under a known key another payload is refused. -/
theorem dispatch_conflict {key : String} {old : Binding} (hs : s.stopping = false)
    (hkey : request.idempotencyKey = some key) (hvalid : validKey key = true)
    (hold : s.mem.keys[principalKey principal key]? = some old)
    (hhash : old.hash ≠ site.digest request) :
    ∃ e, dispatch site principal request draw s = (.error e, s) := by
  obtain ⟨e, he⟩ := @admission_conflict site principal request draw s.clock s.mem key old
    hkey hvalid hold hhash
  exact ⟨e, by rw [dispatch_eq hs hkey, he]; rfl⟩

theorem dispatch_stopping (hs : s.stopping = true) :
    dispatch site principal request draw s = (.error ⟨"journal_unavailable", 503⟩, s) := by
  simp only [dispatch, hs, if_true]

end

/-- A request is dispatched, or nobody answers it. -/
theorem step_client (site : Site) (c : Agent) (principal : ℕ) (request : Request) (draw : Draw) :
    ((engine site).step c (.request (.client principal request draw))).state = c.state ∨
    ((engine site).step c (.request (.client principal request draw))).state =
      (dispatch site principal request draw c.state).2 := by
  by_cases hserves : c.thread.Serves
  · rw [step_request _ hserves]
    show arrive site (.client principal request draw) c.state = _ ∨
      arrive site (.client principal request draw) c.state = _
    simp only [arrive]
    split
    · exact .inr rfl
    · exact .inl rfl
  · obtain ⟨_, th⟩ := c
    cases th with
    | down => exact .inl rfl
    | starting => exact .inl rfl
    | _ => exact absurd trivial hserves

/-- What the journal keeps of a request that was admitted as job `x`. -/
structure Bound (site : Site) (principal : ℕ) (request : Request) (x : Job) (c : Agent) : Prop where
  /-- The key stays bound to the job. -/
  key : ∃ key, request.idempotencyKey = some key ∧
    c.state.journal.keys[principalKey principal key]? =
      some { hash := site.digest request, jobId := x.id }
  /-- The job stays what it was admitted as. -/
  job : c.state.journal.HasJob x
  /-- The same request again is answered with the same job, and changes nothing. -/
  retry : c.state.stopping = false → ∀ draw,
    dispatch site principal request draw c.state = (.ok (request.response x), c.state)
  /-- Any other request under the key is refused, and changes nothing. -/
  conflict : ∀ other draw, other.idempotencyKey = request.idempotencyKey → other ≠ request →
    ∃ e, dispatch site principal other draw c.state = (.error e, c.state)

theorem Bound.of_journal {site : Site} (hinj : Function.Injective site.digest) {principal : ℕ}
    {request : Request} {key : String} {c : Agent} (h : Reached site c)
    (hkey : request.idempotencyKey = some key) (hvalid : validKey key = true)
    (hbound : c.state.journal.keys[principalKey principal key]? =
      some { hash := site.digest request, jobId := x.id }) (hjob : c.state.journal.HasJob x)
    (hrun : ∀ id rev, request.expects = some (id, rev) → c.state.journal.AtLeast id 0) :
    Bound site principal request x c where
  key := ⟨key, hkey, hbound⟩
  job := hjob
  retry hs draw := by
    obtain ⟨hkeys, hrevs⟩ := Reached.synced h
    have hkeys := hkeys hs
    have hrevs := hrevs hs
    have hjob : c.state.mem.HasJob x := by
      unfold State.HasJob
      rw [(Reached.inv h).jobs hs]
      exact hjob
    refine dispatch_retry hs hkey hvalid (hkeys ▸ hbound) hjob fun id rev he hnone => ?_
    obtain ⟨_, hr, -⟩ := hrun id rev he
    have := hrevs id
    simp [hnone, hr] at this
  conflict other draw hother hne := by
    by_cases hs : c.state.stopping = true
    · exact ⟨_, dispatch_stopping hs⟩
    · have hs := Bool.eq_false_iff.2 hs
      have hbound := (Reached.synced h).1 hs ▸ hbound
      exact dispatch_conflict hs (hother.trans hkey) hvalid hbound
        fun heq => hne (hinj heq).symm

/-- **Idempotent admission.**  If the digest is injective, then in every reachable state:
the keys of the journal stay bound as they are and the revisions of its runs do not
decrease; no two jobs of a run have the same revision; and a request that adds a job to
the journal is bound to it for ever, and, unless it is a start, expected the revision its
run had and moved the run to the next one, which is the job's. -/
theorem idempotent_admission {site : Site} (hinj : Function.Injective site.digest) {c : Agent}
    (h : Reached site c) :
    (∀ c', (engine site).Path always c c' →
      (∀ (k : String) (b : Binding), c.state.journal.keys[k]? = some b →
        c'.state.journal.keys[k]? = some b) ∧
      ∀ (id : RunId) (r : Run), c.state.journal.runs[id]? = some r →
        ∃ r', c'.state.journal.runs[id]? = some r' ∧ r.revision ≤ r'.revision) ∧
    (∀ (i j : JobId) (x y : Job), c.state.journal.jobs[i]? = some x →
      c.state.journal.jobs[j]? = some y → i ≠ j → x.runId = y.runId → x.revision ≠ y.revision) ∧
    (∀ (principal : ℕ) (request : Request) (draw : Draw) (j : JobId) (x : Job),
      let c₁ := (engine site).step c (.request (.client principal request draw))
      c.state.journal.jobs[j]? = none → c₁.state.journal.jobs[j]? = some x →
        (dispatch site principal request draw c.state).1 = .ok (request.response x) ∧
        (∀ c', (engine site).Path always c₁ c' → Bound site principal request x c') ∧
        ∀ id rev, request.expects = some (id, rev) → x.runId = id ∧
          ∃ r r', c.state.journal.runs[id]? = some r ∧ rev = toString r.revision ∧
            c₁.state.journal.runs[id]? = some r' ∧ r'.revision = r.revision + 1 ∧
            x.revision = r'.revision) := by
  have hkeys : ∀ {c c' : Agent}, Reached site c → (engine site).Path always c c' →
      ∀ {k : String} {b : Binding}, c.state.journal.keys[k]? = some b →
        c'.state.journal.keys[k]? = some b := fun h hpath _ _ hb =>
    journal_keeps (P := fun d => d.keys[_]? = some _) (fun _ _ _ hst => hst.key)
      (fun _ _ _ _ _ hst hb _ => hst.key hb) h hpath hb
  have hruns : ∀ {c c' : Agent}, Reached site c → (engine site).Path always c c' →
      ∀ {id : RunId} {n : ℕ}, c.state.journal.AtLeast id n → c'.state.journal.AtLeast id n :=
    fun h hpath _ _ hn => journal_keeps (P := fun d => d.AtLeast _ _)
      (fun _ _ _ hst => hst.atLeast) (fun _ _ _ _ _ hst hn _ => hst.atLeast hn) h hpath hn
  refine ⟨fun c' hpath => ⟨fun k b hb => hkeys h hpath hb, fun id r hr =>
    hruns h hpath ⟨r, hr, le_rfl⟩⟩, fun i j x y hx hy hne hrun hrev =>
    hne ((Reached.stamped h).2.distinct hx hy hrun hrev), ?_⟩
  intro principal request draw j x c₁ hnew hx
  have h₁ : Reached site c₁ := .step _ h trivial
  have hstate : c₁.state = (dispatch site principal request draw c.state).2 := by
    rcases step_client site c principal request draw with hs | hs
    · rw [show c₁.state = c.state from hs, hnew] at hx
      cases hx
    · exact hs
  rw [hstate] at hx
  obtain ⟨hs, rfl, hresponse, key, run, hkey, hadmitted, hjournal⟩ :=
    dispatch_admits (Reached.inv h) hnew hx
  have hjournal : c₁.state.journal = c.state.mem.enqueue run (principalKey principal key)
      (site.digest request) x := hstate ▸ hjournal
  have hnext : ∀ id rev, request.expects = some (id, rev) → x.runId = id ∧
      ∃ r r', c.state.journal.runs[id]? = some r ∧ rev = toString r.revision ∧
        c₁.state.journal.runs[id]? = some r' ∧ r'.revision = r.revision + 1 ∧
        x.revision = r'.revision := by
    intro id rev he
    obtain ⟨rfl, r, hr, hrev, hbump⟩ := hadmitted.next id rev he
    have hsame := (Reached.synced h).2 hs x.runId
    rw [hr] at hsame
    obtain ⟨old, hold, hrevision⟩ := Option.map_eq_some_iff.1 hsame.symm
    exact ⟨rfl, old, run, hold, hrevision ▸ hrev, by simp [hjournal, State.enqueue_run],
      hrevision ▸ hbump, hadmitted.revision⟩
  refine ⟨hresponse, fun c' hpath => ?_, hnext⟩
  refine Bound.of_journal hinj (h₁.trans hpath) hkey hadmitted.valid ?_ ?_ fun id rev he => ?_
  · refine hkeys h₁ hpath ?_
    rw [hjournal]
    simp [State.enqueue]
  · refine journal_keeps (P := fun d => d.HasJob x) (fun _ _ _ hst => hst.hasJob)
      (fun _ _ _ _ _ hst hb _ => hst.hasJob hb) h₁ hpath ⟨x, ?_, rfl, rfl, rfl, rfl⟩
    rw [hstate]
    exact hx
  · obtain ⟨-, _, r', -, -, hr', -⟩ := hnext id rev he
    exact hruns h₁ hpath ⟨r', hr', Nat.zero_le _⟩

/-! ## An injective digest -/

namespace Sample

instance encodableChar : Encodable Char := .ofLeftInverse Char.toNat Char.ofNat Char.ofNat_toNat
instance encodableString : Encodable String :=
  .ofLeftInverse String.toList String.ofList fun _ => String.ofList_toList

deriving instance Encodable for PolicyParams, StartParams, OperateParams, FaultParams,
  ApplyParams, RemoveParams, OpenParams, SourceRequest, Request

/-- The code of a request, in unary. -/
def unaryDigest (r : Request) : String := String.ofList (List.replicate (Encodable.encode r) 'a')

theorem unaryDigest_injective : Function.Injective unaryDigest := by
  intro r r' h
  have h := congrArg (fun s => s.toList.length) h
  simpa [unaryDigest] using h

/-- The small installation with that digest. -/
def injective : Site := { site false with digest := unaryDigest }

/-- The request of `Sample.start`. -/
def startRequest : Request :=
  .start { topologyHash := "t", idempotencyKey := "start-one", developmentMode := some true }

end Sample

/-- A start that is sent again. -/
theorem idempotent_admission_start :
    Function.Injective Sample.injective.digest ∧
    let c := (engine Sample.injective).run initial
      (Sample.up ++ [.request (.client 0 Sample.startRequest { runId := "a", jobId := "j1" })])
    ∀ draw, dispatch Sample.injective 0 Sample.startRequest draw c.state =
      (.ok (.accepted "j1" "a" 1), c.state) := by
  refine ⟨Sample.unaryDigest_injective, ?_⟩
  have h : Reached Sample.injective ((engine Sample.injective).run initial Sample.up) :=
    path_run initial Sample.up
  have hbound := ((idempotent_admission Sample.unaryDigest_injective h).2.2 0 Sample.startRequest
    { runId := "a", jobId := "j1" } "j1"
    { id := "j1", runId := "a", operation := .start, revision := 1 } (by decide)
    (by decide)).2.1 _ .refl
  exact hbound.retry (by decide)

end Graphlab.Runtime
