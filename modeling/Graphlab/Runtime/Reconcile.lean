import Graphlab.Runtime.Outline

/-!
# Reconciliation is final

A failed job, a failure the monitor finds and a fault that cannot be removed put a run
into `reconciling`.  From there it should only be destroyed: `resume` looks at the state
again when it executes, and a start that failed is over.  `stop` does not look again.
When one is admitted while the monitor is about to record a failure, the worker executes
it on the run in `reconciling` and leaves `stopped` (`stopped_after_failure`), from where
the run can be resumed.

That is the only way out: where no stop is taken on a run in `reconciling`, a run that
got there is destroyed or stays, and its gates are never released again
(`reconciling_final`).

## Main results

* `State.Stoppable` — the invariant: a running stop works on a run in service.
* `reconciling_final`.
-/

namespace Graphlab.Runtime

open Std (TreeMap)
open Lib Supervised

/-- The states of a run that is out of service. -/
def RunState.withdrawn : RunState → Bool
  | .reconciling => true
  | .destroying => true
  | .destroyed => true
  | _ => false

/-- The worker takes no stop on a run in `reconciling`. -/
def StopsInService : StepCondition :=
  fun c i => ∀ (out : Outcome) (j : JobId) (job : Job) (r : Run), i = .work out →
    c.thread.nextOp = some .take → c.state.stopping = false → c.state.mem.jobs[j]? = some job →
    job.state = .queued → job.operation = .stop → c.state.mem.runs[job.runId]? = some r →
    r.state ≠ .reconciling

/-- A stop that is executed works on a run in service. -/
def State.Stoppable (d : State) : Prop :=
  ∀ ⦃j : JobId⦄ ⦃job : Job⦄ ⦃r : Run⦄, d.jobs[j]? = some job → job.state = .running →
    job.operation = .stop → d.runs[job.runId]? = some r → r.state.withdrawn = false

variable {s t : Shared}

/-! ## Stops -/

theorem Moves.withdrawn_of_stop {r : Run} {value : RunState} (h : Moves .stop r value) :
    value.withdrawn = false := by
  cases value <;> simp_all [Moves, RunState.withdrawn]

/-- No region withdraws the run of a running stop. -/
theorem WriteGuard.stoppable {ph : Phase} {w : Write} (hg : WriteGuard ph s w) (hinv : Inv s)
    (h : s.mem.Stoppable) (clock : Clock) : (w.apply clock s.mem).Stoppable := by
  intro j x' r' hx' hrun hop hr'
  obtain ⟨_, hx, hxe⟩ := Write.job_of_apply hx'
  obtain ⟨rfl, hends⟩ := hxe.eq_of_pending (by simp [Job.pending, hrun])
  obtain ⟨r, hr, he⟩ := Write.run_of_apply hr'
  have hold := h hx hrun hop hr
  have hidle : s.mem.hasPending ≠ false := fun hidle => by
    simpa [Job.pending, hrun] using (State.hasPending_eq_false_iff _).1 hidle j _ hx
  cases he with
  | same => exact hold
  | finished => exact hold
  | telemetryError => exact hold
  | faultDone => exact hold
  | faultBegin job i hi hid =>
    obtain ⟨_, _, h⟩ := Write.beginRun_eq clock r i
    rw [h]
    exact hold
  | interrupted => simp [Write.ends, Job.pending, hrun] at hends
  | failed =>
    obtain ⟨y, hfails⟩ := hg
    have := hfails.alone j _ hx (by simp [Job.pending, hrun])
    simp [Write.ends, this] at hends
  | run write =>
    have hg := hg r hr
    rw [RunWrite.apply_state]
    cases write with
    | state =>
      obtain ⟨_, _, ho, -, hmoves⟩ := hg
      obtain rfl := hinv.mem.one_pending hx ho.job_eq (by simp [Job.pending, hrun])
        (by simp [Job.pending, ho.running])
      cases hx.symm.trans ho.job_eq
      rw [hop] at hmoves
      exact hmoves.withdrawn_of_stop
    | armed => rfl
    | monitorFailed => exact absurd hrun (hg.1 hx)
    | faultFailure => cases hop.symm.trans (hg.2.1 j _ hx hrun)
    | adopting => exact absurd hg.2 hidle
    | adopted => exact absurd hg.2.2 hidle
    | _ => exact hold

/-- The worker may take a job when it is not a stop on a run in `reconciling`. -/
theorem Sound.stoppable_take {world : World} {log : List Event} {d : State}
    (hd : Sound world log d) (h : d.Stoppable) {j : JobId} {job : Job}
    (hj : d.jobs[j]? = some job) (hq : job.state = .queued)
    (htake : ∀ r, job.operation = .stop → d.runs[job.runId]? = some r → r.state ≠ .reconciling) :
    (d.modifyJob j fun j => { j with state := .running }).Stoppable := by
  intro i x' r hx' hrun hop hr
  rw [State.modifyJob_job, Option.map_eq_some_iff] at hx'
  obtain ⟨_, hx, rfl⟩ := hx'
  by_cases hi : j = i
  · subst hi
    cases hj.symm.trans hx
    rw [if_pos rfl] at hop hr
    obtain ⟨r', hr', ha⟩ := hd.waiting hj hq
    cases hr.symm.trans hr'
    have hop : job.operation = .stop := hop
    rw [Awaits, hop] at ha
    rcases ha with ha | ha | ha
    · simp [ha, RunState.withdrawn]
    · simp [ha, RunState.withdrawn]
    · exact absurd ha (htake r hop hr)
  · rw [if_neg hi] at hrun hop hr
    exact h hx hrun hop hr

/-- The invariant of both documents. -/
def Stoppable (s : Shared) : Prop := s.mem.Stoppable ∧ s.journal.Stoppable

theorem Stoppable.does (h : Stoppable s) (hinv : Inv s) {ph : Phase} {o : Op}
    (hst : Does ph s o t)
    (htake : o = .take → ∀ (j : JobId) (job : Job) (r : Run), s.stopping = false →
      s.mem.jobs[j]? = some job → job.state = .queued → job.operation = .stop →
      s.mem.runs[job.runId]? = some r → r.state ≠ .reconciling) : Stoppable t := by
  cases hst with
  | wait => exact h
  | call => exact h
  | update _ n w hg hw => exact ⟨hg.stoppable hinv h.1 _, h.2⟩
  | commit n w hg => exact ⟨hg.1.stoppable hinv h.1 _, hg.1.stoppable hinv h.1 _⟩
  | failCommit n w code hg => exact ⟨hg.1.stoppable hinv h.1 _, h.2⟩
  | take n j job hloop hs hj hq =>
    have := hinv.mem.stoppable_take h.1 hj hq fun r hop hr => htake rfl j job r hs hj hq hop hr
    exact ⟨this, this⟩
  | failTake n j job hloop hs hj hq =>
    exact ⟨hinv.mem.stoppable_take h.1 hj hq fun r hop hr => htake rfl j job r hs hj hq hop hr, h.2⟩

theorem Stoppable.serve (h : Stoppable s) (hst : Serve s t) : Stoppable t := by
  have hmem : t.mem.Stoppable := by
    intro j x' r' hx' hrun hop hr'
    rcases hst.job_of hx' with ⟨x, c, hx, rfl⟩ | ⟨-, -, hq⟩
    · have hp : x.pending = true := by simp [Job.pending, show x.state = _ from hrun]
      rw [hst.runs_eq ((State.hasPending_iff _).2 ⟨j, x, hx, hp⟩)] at hr'
      exact h.1 hx hrun hop hr'
    · simp [hq] at hrun
  exact both_of_saved hmem h.2 hst.journal_eq

/-! ## Withdrawn runs -/

/-- The run is out of service. -/
def Withdrawn (s : Shared) (id : RunId) : Prop :=
  ∃ r, s.mem.runs[id]? = some r ∧ r.state.withdrawn = true

/-- No region of the worker brings a run back into service. -/
theorem WriteGuard.withdrawn {w : Write} (hg : WriteGuard .body s w) (hstop : s.mem.Stoppable)
    {id : RunId} {r r' : Run} {clock : Clock} (hr : s.mem.runs[id]? = some r)
    (h : r.state.withdrawn = true) (he : w.RunEffect clock s.mem id r r') :
    r'.state.withdrawn = true := by
  cases he with
  | same => exact h
  | finished => exact h
  | telemetryError => exact h
  | faultDone => exact h
  | interrupted => rfl
  | failed => rfl
  | faultBegin job i hi hid =>
    obtain ⟨_, _, heq⟩ := Write.beginRun_eq clock r i
    rw [heq]
    exact h
  | run write =>
    have hg := hg r hr
    rw [RunWrite.apply_state]
    cases write with
    | state value =>
      obtain ⟨_, _, ho, rfl, hmoves⟩ := hg
      -- A move needs a run in service, but for those of destruction.
      cases value with
      | destroying => rfl
      | destroyed => rfl
      | stopped => simp [hstop ho.job_eq ho.running hmoves ho.run_eq] at h
      | converging => rcases hmoves with ⟨-, hs | hs⟩ <;> simp [hs, RunState.withdrawn] at h
      | ready =>
        rcases hmoves with ⟨-, hs⟩ | ⟨-, hs | hs⟩ <;> simp [hs, RunState.withdrawn] at h
      | compensating =>
        rcases hmoves with ⟨-, hs | hs | hs⟩ <;> simp [hs, RunState.withdrawn] at h
      | _ => exact hmoves.elim
    | armed => rcases hg.2.1 with hs | hs <;> simp [hs, RunState.withdrawn] at h
    | adopted => cases hg.1
    | monitorFailed => rfl
    | faultFailure => rfl
    | adopting => rfl
    | _ => exact h

theorem Withdrawn.does {id : RunId} (h : Withdrawn s id) (hstop : s.mem.Stoppable) {o : Op}
    (hst : Does .body s o t) : Withdrawn t id := by
  refine hst.mem_of (P := fun d => ∃ r, d.runs[id]? = some r ∧ r.state.withdrawn = true) h
    (fun w clock hg => ?_) fun _ _ _ _ => h
  obtain ⟨_, hr, hw⟩ := h
  obtain ⟨r', hr', he⟩ := Write.run_apply (w := w) hr
  exact ⟨r', hr', hg.withdrawn hstop hr hw he⟩

theorem Withdrawn.serve {id : RunId} (h : Withdrawn s id) (hst : Serve s t) : Withdrawn t id := by
  obtain ⟨_, hr, hw⟩ := h
  obtain ⟨_, hr', _, _, _, _, _, rfl, -⟩ := hst.run hr
  exact ⟨_, hr', hw⟩

/-- The gates of a run that is out of service stay closed. -/
theorem CallGuard.not_released {run : Run} (hg : CallGuard s (.gate run .release))
    (h : Withdrawn s run.id) : False := by
  obtain ⟨_, _, ho, hid, hstate, -⟩ := hg
  obtain ⟨_, hr, hw⟩ := h
  have hrun : s.mem.runs[run.id]? = some run := hid ▸ ho.run_eq
  cases hrun.symm.trans hr
  rcases hstate with hs | hs | hs <;> simp [hs, RunState.withdrawn] at hw

/-! ## Runs of the agent -/

/-- An operation of the worker under `StopsInService`. -/
theorem Stoppable.perform {c : Agent} {ph : Phase} {out : Outcome} {o : Op}
    (h : Stoppable c.state) (hok : StopsInService c (.work out)) (ho : c.thread.nextOp = some o)
    (hinv : Inv c.state) (hg : Guard ph c.state o) : Stoppable (perform o out c.state).2 := by
  refine h.does hinv (perform_does hg out) fun htake j job r => ?_
  subst htake
  exact hok out j job r rfl ho

theorem stoppable_of_reaches {site : Site} {c : Agent} (h : Reaches site StopsInService c) :
    Stoppable c.state := by
  refine (outline site).invariant ?_ ?_ ?_ ?_ h
  · constructor <;> simp [State.Stoppable]
  · exact fun c a _ hinv hJ => arrive_keeps (fun _ _ _ hst h => h.serve hst) hinv hJ a
  · exact fun c out o hok ho hinv hg hJ => hJ.perform hok ho hinv hg
  · exact fun c b _ _ hJ => ⟨hJ.2, hJ.2⟩

/-- **Reconciliation is final** where no stop is taken on a run in `reconciling`: a run
that the worker has put there stays or is destroyed, and its gates are not released. -/
theorem reconciling_final {site : Site} {c c' : Agent} (h : Reaches site StopsInService c)
    (hbody : c.thread.phase = .body) {id : RunId} {r : Run}
    (hr : c.state.mem.runs[id]? = some r) (hrec : r.state = .reconciling)
    (hpath : (engine site).Path (fun c i => StopsInService c i ∧ ∀ b, i ≠ .restart b) c c') :
    (∃ r', c'.state.mem.runs[id]? = some r' ∧
      (r'.state = .reconciling ∨ r'.state = .destroying ∨ r'.state = .destroyed)) ∧
    ∀ run, c'.thread.nextOp = some (.call (.gate run .release)) → run.id ≠ id := by
  have hpath' := (hpath.body (fun _ r hok => hok.2 r rfl) hbody).1
  have hw : Stoppable c'.state ∧ Withdrawn c'.state id := by
    refine (outline site).along (J := fun s => Stoppable s ∧ Withdrawn s id) ?_ ?_ ?_
      ((outline site).sound h) ⟨stoppable_of_reaches h, r, hr, by simp [hrec, RunState.withdrawn]⟩
      hpath'
    · exact fun c a _ hinv hJ => arrive_keeps (J := fun s => Stoppable s ∧ Withdrawn s id)
        (fun _ _ _ hst h => ⟨h.1.serve hst, h.2.serve hst⟩) hinv hJ a
    · intro c out o hok ho hinv hg hJ
      have hdoes := perform_does hg out
      rw [hok.2] at hdoes
      exact ⟨hJ.1.perform hok.1.1 ho hinv hg, hJ.2.does hJ.1.1 hdoes⟩
    · exact fun c b hok _ _ => absurd rfl (hok.1.2 b)
  have hreach : Reaches site StopsInService c' := h.trans (hpath.mono fun _ _ hok => hok.1)
  refine ⟨?_, fun run hrun hid => ?_⟩
  · obtain ⟨r', hr', hw⟩ := hw.2
    refine ⟨r', hr', ?_⟩
    cases hs : r'.state <;> simp_all [RunState.withdrawn]
  · subst hid
    exact CallGuard.not_released (Reached.guard hreach hrun) hw.2

/-- No job is a stop. -/
def stopless (c : Agent) (_ : Choice) : Bool :=
  c.state.mem.jobs.toList.all fun e => e.2.operation != .stop

theorem stopsInService_of_stopless (c : Agent) (i : Choice) (h : stopless c i = true) :
    StopsInService c i := by
  intro out j job r _ _ _ hj _ hop _
  simp only [stopless, List.all_eq_true] at h
  have := h (j, job) (TreeMap.mem_toList_iff_getElem?_eq_some.2 hj)
  simp [hop] at this

/-- The monitor finds that a capture worker of the run `a` has failed. -/
def monitorFailure : List Choice :=
  Sample.up ++ Sample.start "a" "j1" "start-one" :: Sample.working 34 ++
    Sample.failing :: Sample.working 2

/-- The run is destroyed then. -/
theorem reconciling_final_monitorFailure :
    ∃ r, ((engine (Sample.site true)).run ((engine (Sample.site true)).run initial monitorFailure)
        (Sample.operate "a" "destroy" "1" "j2" "destroy-one" :: Sample.working 8)).state.mem.runs["a"]? =
      some r ∧ (r.state = .reconciling ∨ r.state = .destroying ∨ r.state = .destroyed) := by
  have hreach : Reaches (Sample.site true) StopsInService
      ((engine (Sample.site true)).run initial monitorFailure) :=
    Path.of_checks stopsInService_of_stopless .refl _ (by decide)
  have hstate : ((engine (Sample.site true)).run initial monitorFailure).state.mem.runs["a"]?.map
      Run.state = some .reconciling := by decide
  obtain ⟨_, hr, hrec⟩ := Option.map_eq_some_iff.1 hstate
  have hcheck : ∀ c i, (stopless c i && i matches .request _ | .work _) = true →
      StopsInService c i ∧ ∀ b, i ≠ .restart b := by
    intro c i h
    rw [Bool.and_eq_true] at h
    refine ⟨stopsInService_of_stopless c i h.1, ?_⟩
    rintro b rfl
    simp at h
  exact (reconciling_final hreach (by decide) hr hrec
    (Path.of_checks hcheck .refl _ (by decide))).1

/-- A stop is admitted while the monitor has yet to record the failure. -/
def lateStop : List Choice :=
  Sample.up ++ Sample.start "a" "j1" "start-one" :: Sample.working 34 ++
    Sample.failing :: Sample.operate "a" "stop" "1" "j2" "stop-one" :: Sample.working 2

/-- The worker executes it and takes the run out of `reconciling`. -/
theorem stopped_after_failure : ∃ c c' : Agent, Reached (Sample.site true) c ∧
    c.thread.phase = .body ∧ c.state.mem.runs["a"]?.map Run.state = some .reconciling ∧
    (engine (Sample.site true)).Path (fun _ i => ∀ b, i ≠ .restart b) c c' ∧
    c'.state.mem.runs["a"]?.map Run.state = some .stopped := by
  refine ⟨(engine (Sample.site true)).run initial lateStop,
    (engine (Sample.site true)).run ((engine (Sample.site true)).run initial lateStop)
      (Sample.working 9), path_run _ lateStop, by decide, by decide, ?_,
    by decide⟩
  exact Path.run .refl _ fun i hi c b hb => by simp [Sample.working, hb] at hi

end Graphlab.Runtime
