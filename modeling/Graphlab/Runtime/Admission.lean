import Graphlab.Runtime.Keys
import Mathlib

/-!
# When cleanup is admitted

A destroy or recover at the current revision and under a new key is refused for one
reason only: the journal has 256 jobs, and jobs are never dropped.  A run that is up by
then can no longer be cleaned up; that such states are reached is shown by a run that is
stopped over and over again.

## Main results

* `cleanup_admitted` — admission of cleanup is the same as room in the journal.
* `Repeatable.again`, `exists_repeatable` — a stopped run can be stopped again.
* `cleanup_refused` — the capacity is reached with a run that is up.
-/

namespace Graphlab.Runtime

open Std (TreeMap)
open Lib Supervised

variable {s t : Shared}

/-- The request to clean up a run at its current revision. -/
structure Cleanup (p : OperateParams) (id : RunId) (r : Run) : Prop where
  run : p.runId = id
  operation : p.operation = "destroy" ∨ p.operation = "recover"
  revision : p.expectedRevision = toString r.revision
  valid : validKey p.idempotencyKey = true

variable {p : OperateParams} {r : Run} {j : JobId} {job : Job}

theorem Cleanup.target {id : RunId} (h : Cleanup p id r) {mem : State}
    (hr : mem.runs[id]? = some r) :
    ∃ operation, operatedRun p mem = .ok (id, r.bump, operation) := by
  obtain ⟨rfl, hop, hrev, -⟩ := h
  rcases hop with hop | hop
  · exact ⟨.destroy, operatedRun_ok.2 ⟨r, hr, hrev, by rw [hop]; rfl, by simp, by simp, rfl, rfl⟩⟩
  · exact ⟨.recover, operatedRun_ok.2 ⟨r, hr, hrev, by rw [hop]; rfl, by simp, by simp, rfl, rfl⟩⟩

/-- Cleanup that finds no room. -/
theorem Cleanup.refused {id : RunId} (h : Cleanup p id r) (site : Site) (principal : ℕ)
    (draw : Draw) (hs : s.stopping = false)
    (hnew : s.mem.keys[principalKey principal p.idempotencyKey]? = none)
    (hfull : 256 ≤ s.mem.jobs.size) :
    dispatch site principal (.operate p) draw s = (.error ⟨"journal_job_capacity", 429⟩, s) := by
  have hadmit : admitLifecycle site principal (.operate p) draw s.mem =
      .error ⟨"journal_job_capacity", 429⟩ := by
    simp only [admitLifecycle, Lifecycle.key, Lifecycle.request, h.valid, boundJob_none.2 hnew,
      hfull]
    rfl
  simp only [dispatch, hs, Bool.false_eq_true, if_false, dispatchLifecycle, hadmit]

/-- An operation that finds room. -/
theorem dispatch_operate {site : Site} {principal : ℕ} {draw : Draw} {id : RunId} {run : Run}
    {operation : Operation} (hs : s.stopping = false) (hp : s.mem.hasPending = false)
    (hvalid : validKey p.idempotencyKey = true)
    (hnew : s.mem.keys[principalKey principal p.idempotencyKey]? = none)
    (hroom : s.mem.jobs.size < 256) (htarget : operatedRun p s.mem = .ok (id, run, operation))
    (hsave : draw.saveError = none) :
    dispatch site principal (.operate p) draw s =
      (.ok (.accepted draw.jobId id run.revision),
        s.enrol
          (s.mem.enqueue run (principalKey principal p.idempotencyKey) (site.digest (.operate p))
            { id := draw.jobId, runId := id, operation, revision := run.revision })
          draw.jobId none) := by
  have hadmit := (@admitLifecycle_inr s.mem site principal draw (.operate p) _ _).2
    ⟨hvalid, hnew, hroom, hp, id, run, operation, htarget, rfl, rfl⟩
  simp only [dispatch, hs, Bool.false_eq_true, if_false, dispatchLifecycle, hadmit, hsave]
  rfl

/-- **Admission of cleanup.**  Where requests are answered, nothing is pending and a
`save` succeeds, a destroy or recover of a run at its current revision and under a new,
well-formed key is admitted exactly if the journal has fewer than 256 jobs. -/
theorem cleanup_admitted {site : Site} {c : Agent} (hserves : c.thread.Serves)
    (hs : c.state.stopping = false) (hp : c.state.mem.hasPending = false) {id : RunId} {r : Run}
    (hr : c.state.mem.runs[id]? = some r) {p : OperateParams} (hclean : Cleanup p id r)
    {principal : ℕ} (hnew : c.state.mem.keys[principalKey principal p.idempotencyKey]? = none)
    {draw : Draw} (hfresh : draw.fresh c.state.mem = true) (hsave : draw.saveError = none) :
    let c₁ := (engine site).step c (.request (.client principal (.operate p) draw))
    ((dispatch site principal (.operate p) draw c.state).1 =
        .ok (.accepted draw.jobId id (r.revision + 1)) ∧
      ∃ job, c₁.state.journal.jobs[draw.jobId]? = some job ∧ job.runId = id ∧
        job.state = .queued) ↔
      c.state.mem.jobs.size < 256 := by
  intro c₁
  have hc₁ : c₁.state = (dispatch site principal (.operate p) draw c.state).2 := by
    rw [show c₁ = _ from step_request _ hserves _]
    show arrive site (.client principal (.operate p) draw) c.state = _
    simp only [arrive, hfresh, if_true]
  rw [hc₁]
  constructor
  · rintro ⟨hok, -⟩
    by_contra hfull
    rw [hclean.refused site principal draw hs hnew (by omega)] at hok
    cases hok
  · intro hroom
    obtain ⟨operation, htarget⟩ := hclean.target hr
    rw [dispatch_operate hs hp hclean.valid hnew hroom htarget hsave]
    exact ⟨rfl, { id := draw.jobId, runId := id, operation, revision := r.revision + 1 },
      by simp [Shared.enrol, State.enqueue_job, Run.bump], rfl, rfl⟩

/-- A run that is up. -/
def started : List Choice := Sample.up ++ Sample.start "a" "j1" "start-one" :: Sample.working 16

theorem cleanup_admitted_started :
    let p : OperateParams :=
      { runId := "a", operation := "destroy", expectedRevision := "1",
        idempotencyKey := "destroy-one" }
    (dispatch (Sample.site false) 0 (.operate p) { jobId := "j2" }
      ((engine (Sample.site false)).run initial started).state).1 =
        .ok (.accepted "j2" "a" 2) := by
  intro p
  have hrev : (((engine (Sample.site false)).run initial started).state.mem.runs["a"]?.map
      Run.revision) = some 1 := by decide
  obtain ⟨r, hr, hrev⟩ := Option.map_eq_some_iff.1 hrev
  have hclean : Cleanup p "a" r := ⟨rfl, .inl rfl, by rw [hrev]; rfl, by decide⟩
  have hidle : ((engine (Sample.site false)).run initial started).thread = .idle :=
    Thread.eq_idle (by decide)
  have hadmitted := @cleanup_admitted (Sample.site false) _ (by rw [hidle]; trivial)
    (by decide) (by decide) "a" r hr p hclean 0 (by decide)
    { jobId := "j2" } (by decide) rfl
  rw [hrev] at hadmitted
  exact (hadmitted.2 (by decide)).1

/-! ## A run that is stopped again and again -/

/-- There are always names that are not in use. -/
theorem exists_fresh (used : List String) {f : ℕ → String} (hf : Function.Injective f) :
    ∃ n, f n ∉ used := by
  obtain ⟨_, ⟨n, rfl⟩, hn⟩ :=
    (Set.infinite_range_of_injective hf).exists_notMem_finset used.toFinset
  exact ⟨n, fun h => hn (List.mem_toFinset.2 h)⟩

theorem exists_fresh_draw (mem : State) : ∃ draw : Draw, draw.fresh mem = true ∧
    draw.saveError = none := by
  obtain ⟨n, hn⟩ := exists_fresh (mem.runs.keys ++ mem.jobs.keys ++
    mem.runs.toList.flatMap fun e => e.2.faults.keys) @Nat.repr_injective
  simp only [List.mem_append, List.mem_flatMap, TreeMap.mem_keys, not_or, not_exists,
    not_and] at hn
  refine ⟨{ runId := n.repr, jobId := n.repr, faultId := n.repr }, ?_, rfl⟩
  simp only [Draw.fresh, Bool.and_eq_true, Bool.not_eq_true', List.all_eq_true]
  refine ⟨⟨?_, ?_⟩, fun e he => ?_⟩
  · exact Bool.eq_false_iff.2 fun h => hn.1.1 (TreeMap.mem_iff_contains.2 h)
  · exact Bool.eq_false_iff.2 fun h => hn.1.2 (TreeMap.mem_iff_contains.2 h)
  · exact Bool.eq_false_iff.2 fun h => hn.2 e he (TreeMap.mem_iff_contains.2 h)

theorem exists_fresh_key (mem : State) (key : String) :
    ∃ principal, mem.keys[principalKey principal key]? = none := by
  obtain ⟨n, hn⟩ := exists_fresh mem.keys.keys (f := fun n => principalKey n key) fun m n h => by
    simpa [principalKey, Nat.repr_inj] using h
  exact ⟨n, TreeMap.getElem?_eq_none fun h => hn (TreeMap.mem_keys.2 h)⟩

/-- The worker is idle, nothing is pending, and a run without capture is stopped. -/
structure Repeatable (site : Site) (c : Agent) : Prop where
  reached : Reached site c
  idle : c.thread = .idle
  serving : c.state.stopping = false
  quiet : c.state.mem.hasPending = false
  stopped : ∃ (id : RunId) (r : Run), c.state.mem.runs[id]? = some r ∧ r.state = .stopped ∧ r.recording = false

/-- Operations that succeed at once. -/
abbrev succeeding (o : Op) : Shared → Ans o × Shared := perform o {}

theorem exec_read : Act.read.exec succeeding s = (.ok s.mem, s) := rfl
theorem exec_call (c : Call) :
    (Act.call' c).exec succeeding s = (.ok (), (s.call c {}).2) := rfl

theorem exec_take (hs : s.stopping = false) (hj : s.queuedJob = some j) :
    Act.take.exec succeeding s = (.ok (.job j),
      { s with
        mem := s.mem.modifyJob j fun j => { j with state := .running }
        journal := s.mem.modifyJob j fun j => { j with state := .running }
        log := .taken j :: s.log }) := by
  have hact : performTake none s = (.ok (.job j),
      { s with
        mem := s.mem.modifyJob j fun j => { j with state := .running }
        journal := s.mem.modifyJob j fun j => { j with state := .running }
        log := .taken j :: s.log }) := by
    simp [performTake, hs, hj]
  have hact : succeeding .take s = _ := hact
  simp only [Act.take, Prog.perform, Prog.exec, hact, id]

theorem exec_snapshot (hj : s.mem.jobs[j]? = some job) (hr : s.mem.runs[job.runId]? = some r) :
    (snapshot j).exec succeeding s = (.ok (job, r), s) := by
  refine (Prog.exec_bind succeeding exec_read).trans ?_
  simp only [hj, hr]
  rfl

theorem exec_complete (hj : s.mem.jobs[j]? = some job) (hr : s.mem.runs[job.runId]? = some r) :
    (complete j).exec succeeding s =
      (.ok (), ((s.call (.observe r) {}).2.commit (.finished j r {}) none).2) :=
  (Prog.exec_bind succeeding (exec_snapshot hj hr)).trans rfl

/-- A stop that succeeds, of a run without capture. -/
theorem exec_executeStop (hj : s.mem.jobs[j]? = some job) (hr : s.mem.runs[job.runId]? = some r)
    (hid : r.id = job.runId) (hrec : r.recording = false) :
    ∃ t, (executeStop j r).exec succeeding s = (.ok (), t) ∧ t.stopping = s.stopping ∧
      t.mem.jobs = (s.mem.modifyJob j fun j => { j with state := .succeeded }).jobs ∧
      ∃ r', t.mem.runs[job.runId]? = some r' ∧ r'.state = .stopped ∧ r'.recording = false := by
  let quiesced := (s.call (.gate r .quiesce) {}).2
  let stopped := (quiesced.commit (.run r.id (.state .stopped)) none).2
  let last := (RunWrite.state .stopped).apply s.clock r
  have hj' : stopped.mem.jobs[j]? = some job := hj
  have hr' : stopped.mem.runs[job.runId]? = some last := by
    show (s.mem.modifyRun r.id _).runs[job.runId]? = some last
    rw [State.modifyRun_run, hr, hid]
    simp [last, quiesced, Shared.call]
  refine ⟨((stopped.call (.observe last) {}).2.commit (.finished j last {}) none).2, ?_, rfl, rfl,
    ?_⟩
  · refine (Prog.exec_bind succeeding (exec_call _)).trans ?_
    rw [hrec]
    exact exec_complete hj' hr'
  · refine ⟨Write.finishRun last {} last, ?_, rfl, hrec⟩
    show ((stopped.mem.modifyRun last.id _).modifyJob j _).runs[job.runId]? = _
    rw [State.modifyJob_runs, State.modifyRun_run, hr']
    exact congrArg some (if_pos hid)

/-- The worker takes a stop and executes it. -/
theorem exec_work (hs : s.stopping = false) (hq : s.queuedJob = some j)
    (hj : s.mem.jobs[j]? = some job) (hop : job.operation = .stop)
    (hr : s.mem.runs[job.runId]? = some r) (hid : r.id = job.runId) (hrec : r.recording = false) :
    ∃ t, work.exec succeeding s = (.ok true, t) ∧ t.stopping = false ∧
      t.mem.jobs.size = s.mem.jobs.size ∧
      (∀ (i : JobId) (x : Job), t.mem.jobs[i]? = some x → x.pending = true →
        i ≠ j ∧ s.mem.jobs[i]? = some x) ∧
      ∃ r', t.mem.runs[job.runId]? = some r' ∧ r'.state = .stopped ∧ r'.recording = false := by
  let taken : Shared :=
    { s with
      mem := s.mem.modifyJob j fun j => { j with state := .running }
      journal := s.mem.modifyJob j fun j => { j with state := .running }
      log := .taken j :: s.log }
  have hj' : taken.mem.jobs[j]? = some { job with state := .running } := by
    show (s.mem.modifyJob j _).jobs[j]? = _
    simp [State.modifyJob_job, hj]
  obtain ⟨t, hexec, hstopping, hjobs, hrun⟩ :=
    @exec_executeStop taken r j { job with state := .running } hj' hr hid hrec
  refine ⟨t, ?_, hstopping.trans hs, ?_, fun i x hx hp => ?_, hrun⟩
  · refine (Prog.exec_bind succeeding (exec_take hs hq)).trans ?_
    have hexecute : (execute j).exec succeeding taken = (.ok (), t) := by
      refine (Prog.exec_bind succeeding (exec_snapshot hj' hr)).trans ?_
      simp only [hop]
      exact hexec
    exact Prog.exec_bind succeeding (Prog.exec_handle succeeding hexecute)
  · rw [hjobs]
    exact TreeMap.size_modify.trans TreeMap.size_modify
  · rw [hjobs] at hx
    simp only [State.modifyJob_job, taken, Option.map_map, Option.map_eq_some_iff,
      Function.comp] at hx
    obtain ⟨_, hy, rfl⟩ := hx
    by_cases hi : j = i
    · simp [hi, Job.pending] at hp
    · rw [if_neg hi, if_neg hi]
      exact ⟨Ne.symm hi, hy⟩

/-- A stopped run can be stopped again, while there is room. -/
theorem Repeatable.again {site : Site} {c : Agent} (h : Repeatable site c)
    (hroom : c.state.mem.jobs.size < 256) :
    ∃ c', Repeatable site c' ∧ c'.state.mem.jobs.size = c.state.mem.jobs.size + 1 := by
  obtain ⟨hreached, hidle, hs, hp, id, r, hr, hstate, hrec⟩ := h
  obtain ⟨principal, hnew⟩ := exists_fresh_key c.state.mem "stop-again"
  obtain ⟨draw, hfresh, hsave⟩ := exists_fresh_draw c.state.mem
  let p : OperateParams :=
    { runId := id, operation := "stop", expectedRevision := toString r.revision,
      idempotencyKey := "stop-again" }
  have htarget : operatedRun p c.state.mem = .ok (id, r.bump, .stop) :=
    operatedRun_ok.2 ⟨r, hr, rfl, rfl, fun _ => .inr hstate, by simp, rfl, rfl⟩
  let c₁ := (engine site).step c (.request (.client principal (.operate p) draw))
  have hc₁ : c₁ = ⟨(dispatch site principal (.operate p) draw c.state).2, .idle⟩ := by
    show (engine site).step c _ = _
    rw [step_request _ (by rw [hidle]; trivial), hidle]
    show Config.mk (arrive site (.client principal (.operate p) draw) c.state) _ = _
    simp only [arrive, hfresh, if_true]
  have hvalid : validKey "stop-again" = true := by decide
  rw [dispatch_operate hs hp hvalid hnew hroom htarget hsave] at hc₁
  have hreached₁ : Reached site c₁ := .step _ hreached trivial
  -- The worker takes the only job that is queued, and executes it.
  let job : Job := { id := draw.jobId, runId := id, operation := .stop, revision := r.bump.revision }
  have hjobs : ∀ i : JobId, c₁.state.mem.jobs[i]? =
      if draw.jobId = i then some job else c.state.mem.jobs[i]? := fun i => by
    rw [hc₁]
    exact State.enqueue_job ..
  have hjob : c₁.state.mem.jobs[draw.jobId]? = some job := by simp [hjobs]
  have hsettled : ∀ {i : JobId} {x : Job}, c₁.state.mem.jobs[i]? = some x → x.pending = true →
      i = draw.jobId := by
    intro i x hx hpending
    by_contra hne
    rw [hjobs, if_neg (Ne.symm hne)] at hx
    simp [(State.hasPending_eq_false_iff _).1 hp i x hx] at hpending
  have hq : c₁.state.queuedJob = some draw.jobId := by
    cases hq : c₁.state.queuedJob with
    | none => exact absurd rfl (Shared.queuedJob_none hq hjob)
    | some =>
      obtain ⟨x, hx, hxq⟩ := Shared.queuedJob_some hq
      rw [hsettled hx (by simp [Job.pending, hxq])]
  have hr₁ : c₁.state.mem.runs[id]? = some r.bump := by
    rw [hc₁]
    exact (State.enqueue_run ..).trans (if_pos rfl)
  have hid : r.id = id := (Reached.inv hreached).mem.run_id hr
  obtain ⟨t, hexec, hserving, hsize, hpending, r', hr', hstate', hrec'⟩ :=
    exec_work (by rw [hc₁]; exact hs) hq hjob rfl hr₁ hid hrec
  obtain ⟨n, hn⟩ := @run_exec _ _ _ _ _ _ _ (engine site) {} _ _ _ hexec
  have hrun : (engine site).run c₁ (.work {} :: List.replicate n (.work {})) = ⟨t, .idle⟩ := by
    have hidle₁ : c₁.thread = .idle := by rw [hc₁]
    rw [run_cons, show (engine site).step c₁ (.work {}) = ⟨c₁.state, .ofBody (engine site).body⟩ by
      simp [step, hidle₁]]
    exact hn
  refine ⟨⟨t, .idle⟩, ⟨?_, rfl, hserving, ?_, id, r', hr', hstate', hrec'⟩, ?_⟩
  · rw [← hrun]
    exact hreached₁.run _ fun _ _ _ => trivial
  · refine (State.hasPending_eq_false_iff _).2 fun i x hx => ?_
    by_contra hp
    obtain ⟨hne, hx⟩ := hpending i x hx (by simpa using hp)
    exact hne (hsettled hx (by simpa using hp))
  · show t.mem.jobs.size = _
    rw [hsize, hc₁]
    show (c.state.mem.jobs.insert draw.jobId _).size = _
    have hfree : c.state.mem.jobs.contains draw.jobId = false := by
      simp only [Draw.fresh, Bool.and_eq_true, Bool.not_eq_true'] at hfresh
      exact hfresh.1.2
    simp [TreeMap.size_insert, hfree]

/-- The journal fills up under a run that is up. -/
theorem exists_repeatable {site : Site} {c : Agent} (h : Repeatable site c)
    (hroom : c.state.mem.jobs.size ≤ 256) :
    ∃ c', Repeatable site c' ∧ c'.state.mem.jobs.size = 256 := by
  obtain ⟨n, hn⟩ : ∃ n, c.state.mem.jobs.size + n = 256 := ⟨_, Nat.add_sub_cancel' hroom⟩
  induction n generalizing c with
  | zero => exact ⟨c, h, hn⟩
  | succ n ih =>
    obtain ⟨_, h', _⟩ := h.again (by omega)
    exact ih h' (by omega) (by omega)

/-- A run that was started and then stopped. -/
def stopping : List Choice :=
  Sample.up ++ Sample.start "a" "j1" "start-one" :: Sample.working 16 ++
    Sample.operate "a" "stop" "1" "j2" "stop-one" :: Sample.working 8

theorem repeatable_stopping :
    Repeatable (Sample.site false) ((engine (Sample.site false)).run initial stopping) where
  reached := path_run initial stopping
  idle := Thread.eq_idle (by decide)
  serving := by decide
  quiet := by decide
  stopped := by
    have hrun : (((engine (Sample.site false)).run initial stopping).state.mem.runs["a"]?.map
        fun r => (r.state, r.recording)) = some (.stopped, false) := by decide
    obtain ⟨r, hr, heq⟩ := Option.map_eq_some_iff.1 hrun
    exact ⟨"a", r, hr, congrArg Prod.fst heq, congrArg Prod.snd heq⟩

/-- **A run that cannot be cleaned up.**  There is a reachable state in which requests are
answered, nothing is pending and a run is not destroyed, and yet every destroy and
recover of it at its current revision, under whatever new and well-formed key, is
refused: 256 jobs are recorded. -/
theorem cleanup_refused :
    ∃ (site : Site) (c : Agent) (id : RunId) (r : Run), Reached site c ∧ c.thread.Serves ∧
      c.state.stopping = false ∧ c.state.mem.hasPending = false ∧
      c.state.mem.runs[id]? = some r ∧ r.state ≠ .destroyed ∧
      ∀ (p : OperateParams) (principal : ℕ) (draw : Draw), Cleanup p id r →
        c.state.mem.keys[principalKey principal p.idempotencyKey]? = none →
        dispatch site principal (.operate p) draw c.state =
          (.error ⟨"journal_job_capacity", 429⟩, c.state) := by
  obtain ⟨c, ⟨hreached, hidle, hs, hp, id, r, hr, hstate, -⟩, hsize⟩ :=
    exists_repeatable repeatable_stopping (by decide)
  refine ⟨_, c, id, r, hreached, by rw [hidle]; trivial, hs, hp, hr, by simp [hstate], ?_⟩
  exact fun p principal draw hclean hnew => hclean.refused _ principal draw hs hnew hsize.ge

end Graphlab.Runtime
