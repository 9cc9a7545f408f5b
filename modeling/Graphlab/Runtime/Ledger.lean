import Graphlab.Runtime.Outline

/-!
# Jobs

A job is admitted by a request, taken by the worker, and ended by the region that
records its outcome, by the failure handler or by the next process.  Memory may be ahead
of the journal after a `save` that failed; then nothing is admitted or taken any more.

## Main results

* `Kept` — what is ended in the journal is so in memory; `journal_settled`.
* `Once`, `admitted_of_pending` — each job is taken at most once, and only after its
  admission was committed.
* `Closed.along` — a failed `save` closes the agent until it is restarted.
* `job_ledger` — all of it, of every reachable state.
-/

namespace Graphlab.Runtime

open Lib Supervised

variable {s t : Shared}

/-- At most one job is queued or running. -/
def State.OnePending (d : State) : Prop :=
  ∀ ⦃i j : JobId⦄ ⦃x y : Job⦄, d.jobs[i]? = some x → d.jobs[j]? = some y → x.pending = true →
    y.pending = true → i = j

/-! ## Jobs that have ended -/

/-- A job that has ended in the journal is the same in memory. -/
def Kept (s : Shared) : Prop :=
  ∀ ⦃j : JobId⦄ ⦃y : Job⦄, s.journal.jobs[j]? = some y → y.pending = false →
    s.mem.jobs[j]? = some y

variable {j : JobId} {ph : Phase} {o : Op} {site : Site} {ok : StepCondition} {c : Agent}

theorem Owns.not_settled {job y : Job} {r : Run} (h : Owns s j job r) (hy : s.mem.jobs[j]? = some y)
    (hp : y.pending = false) : False := by
  cases hy.symm.trans h.job_eq
  simp [Job.pending, h.running] at hp

/-- A region leaves a job that has ended in both documents. -/
theorem WriteGuard.settled {w : Write} (hg : WriteGuard ph s w) {y y' : Job}
    (hmem : s.mem.jobs[j]? = some y) (hjournal : s.journal.jobs[j]? = some y)
    (hp : y.pending = false) (he : Write.JobEffect j y w y') : y' = y := by
  cases he with
  | same => rfl
  | finished =>
    obtain ⟨job, ho, -⟩ := hg
    exact (ho.not_settled hmem hp).elim
  | startCancelled =>
    obtain ⟨job, r, ho, -⟩ := hg
    exact (ho.not_settled hmem hp).elim
  | failed =>
    obtain ⟨job, hfails⟩ := hg
    obtain ⟨_, hold, hrunning, -⟩ := hfails.journal
    cases hjournal.symm.trans hold
    simp [Job.pending, hrunning] at hp
  | faultCancelled =>
    obtain ⟨job, r, ho, -⟩ := hg
    exact (ho.not_settled hmem hp).elim
  | faultGone =>
    obtain ⟨job, r, ho, -⟩ := hg
    exact (ho.not_settled hmem hp).elim
  | faultDone =>
    obtain ⟨_, _, _, ho, -⟩ := hg
    exact (ho.not_settled hmem hp).elim
  | interrupted hpending => simp [hp] at hpending

theorem Does.settled (hst : Does ph s o t) {y : Job} (hmem : s.mem.jobs[j]? = some y)
    (hjournal : s.journal.jobs[j]? = some y)
    (hp : y.pending = false) : t.mem.jobs[j]? = some y := by
  refine hst.mem_of (P := fun d => d.jobs[j]? = some y) hmem (fun w clock hg => ?_)
    fun i job hi hq => ?_
  · obtain ⟨_, hy', he⟩ := @Write.job_apply clock s.mem w j y hmem
    rw [hy', hg.settled hmem hjournal hp he]
  · have hne : i ≠ j := by
      rintro rfl
      cases hi.symm.trans hmem
      simp [Job.pending, hq] at hp
    rw [State.modifyJob_job, hmem]
    simp [hne]

namespace Kept

theorem of_eq (h : t.journal = t.mem) : Kept t := fun _ _ hy _ => h ▸ hy

theorem does (h : Kept s) (hst : Does ph s o t) : Kept t := by
  rcases hst.journal_eq with hj | hj
  · exact .of_eq hj
  · exact fun j y hy hp => hst.settled (h (hj ▸ hy) hp) (hj ▸ hy) hp

theorem serve (h : Kept s) (hst : Serve s t) : Kept t := by
  rcases hst.journal_eq with hj | hj
  · exact .of_eq hj
  · exact fun j y hy hp => hst.job_settled (h (hj ▸ hy) hp) hp

end Kept

theorem Reached.kept (h : Reaches site ok c) :
    Kept c.state :=
  Reached.invariant (J := Kept) (fun _ _ hy => by simp at hy) (fun _ _ _ hst h => h.serve hst)
    (fun _ _ _ _ _ hst h => h.does hst) (fun _ _ _ _ => .of_eq rfl) h

/-- A job that has ended in the journal never changes again. -/
theorem journal_settled {c' : Agent} (h : Reaches site ok c)
    (hpath : (engine site).Path always c c') {y : Job} (hy : c.state.journal.jobs[j]? = some y)
    (hp : y.pending = false) :
    c'.state.journal.jobs[j]? = some y :=
  journal_keeps (P := fun d => d.jobs[j]? = some y) (fun _ _ _ hst hy => hst.job_settled hy hp)
    (fun _ _ _ _ _ hst hmem hjournal => hst.settled hmem hjournal hp) h hpath hy

/-! ## Jobs that are executed -/

/-- The jobs the worker has taken, newest first. -/
def executed (log : List Event) : List JobId :=
  log.filterMap fun
    | .taken j => some j
    | _ => none

/-- The job has left the queue. -/
def State.Left (d : State) (j : JobId) : Prop := ∃ x, d.jobs[j]? = some x ∧ x.state ≠ .queued

/-- Each job was taken at most once, and those that were have left the queue. -/
structure Once (s : Shared) : Prop where
  nodup : (executed s.log).Nodup
  mem : ∀ j ∈ executed s.log, s.mem.Left j
  journal : ∀ j ∈ executed s.log, s.journal.Left j

theorem Write.left_apply {w : Write} {clock : Clock} {d : State} (h : d.Left j) :
    (w.apply clock d).Left j := by
  obtain ⟨x, hx, hne⟩ := h
  obtain ⟨x', hx', he⟩ := @job_apply clock d w j x hx
  refine ⟨x', hx', ?_⟩
  cases he with
  | same => exact hne
  | faultDone cancel observed => cases cancel <;> simp
  | _ => simp

theorem State.left_running {d : State} {i : JobId} (h : d.Left j) :
    (d.modifyJob i fun j => { j with state := .running }).Left j := by
  obtain ⟨_, hx, hne⟩ := h
  refine ⟨_, by rw [State.modifyJob_job, hx]; rfl, ?_⟩
  split
  · simp
  · exact hne

theorem Serve.left (hst : Serve s t) (h : s.mem.Left j) : t.mem.Left j := by
  obtain ⟨_, hx, hne⟩ := h
  obtain ⟨_, hc⟩ := hst.job hx
  exact ⟨_, hc, hne⟩

theorem Does.left (hst : Does ph s o t) (h : s.mem.Left j) : t.mem.Left j :=
  hst.mem_of (P := fun d => d.Left j) h (fun _ _ _ => Write.left_apply h)
    fun _ _ _ _ => State.left_running h

/-- Only `take` adds to the jobs that were taken. -/
theorem Does.executed_eq (hst : Does ph s o t) :
    executed t.log = executed s.log ∧ t.admitted = s.admitted ∨
    ∃ j job, o = .take ∧ s.stopping = false ∧ s.mem.jobs[j]? = some job ∧ job.state = .queued ∧
      executed t.log = j :: executed s.log ∧ t.admitted = s.admitted ∧ t.journal = t.mem ∧
      t.mem.Left j := by
  cases hst with
  | take n j job hloop hs hj hq =>
    refine .inr ⟨j, job, rfl, hs, hj, hq, rfl, rfl, rfl, { job with state := .running }, ?_, by simp⟩
    show (s.mem.modifyJob j _).jobs[j]? = _
    rw [State.modifyJob_job, hj]
    simp
  | _ => exact .inl ⟨rfl, rfl⟩

namespace Once

theorem does (h : Once s) (hst : Does ph s o t) : Once t := by
  rcases hst.executed_eq with ⟨he, -⟩ | ⟨j, job, -, -, hj, hq, he, -, hjournal, hleft⟩
  · refine ⟨he ▸ h.nodup, fun j hj => hst.left (h.mem j (he ▸ hj)), fun j hj => ?_⟩
    rcases hst.journal_eq with hjournal | hjournal
    · exact hjournal ▸ hst.left (h.mem j (he ▸ hj))
    · exact hjournal ▸ h.journal j (he ▸ hj)
  · have hnew : j ∉ executed s.log := by
      intro hmem
      obtain ⟨_, hx, hne⟩ := h.mem j hmem
      cases hj.symm.trans hx
      exact hne hq
    have hmem : ∀ i ∈ executed t.log, t.mem.Left i := by
      intro i hi
      rw [he] at hi
      rcases List.mem_cons.1 hi with rfl | hi
      · exact hleft
      · exact hst.left (h.mem i hi)
    exact ⟨he ▸ List.nodup_cons.2 ⟨hnew, h.nodup⟩, hmem, hjournal ▸ hmem⟩

theorem serve (h : Once s) (hst : Serve s t) : Once t := by
  refine ⟨hst.log_eq ▸ h.nodup, fun j hj => hst.left (h.mem j (hst.log_eq ▸ hj)), fun j hj => ?_⟩
  rcases hst.journal_eq with hjournal | hjournal
  · exact hjournal ▸ hst.left (h.mem j (hst.log_eq ▸ hj))
  · exact hjournal ▸ h.journal j (hst.log_eq ▸ hj)

end Once

theorem Reached.once (h : Reaches site ok c) :
    Once c.state :=
  Reached.invariant (J := Once) ⟨by simp [executed], by simp [executed], by simp [executed]⟩
    (fun _ _ _ hst h => h.serve hst) (fun _ _ _ _ _ hst h => h.does hst)
    (fun _ _ _ h => ⟨h.nodup, h.journal, h.journal⟩) h

/-! ## Admission -/

/-- A pending job was admitted by a request that was committed, or the agent stops. -/
def Registered (s : Shared) : Prop :=
  ∀ ⦃j : JobId⦄ ⦃x : Job⦄, s.mem.jobs[j]? = some x → x.pending = true → s.stopping = false →
    j ∈ s.admitted

namespace Registered

theorem does (h : Registered s) (hst : Does ph s o t) : Registered t := by
  have hregion : ∀ (w : Write) (clock : Clock) ⦃j : JobId⦄ ⦃x : Job⦄,
      (w.apply clock s.mem).jobs[j]? = some x → x.pending = true → s.stopping = false →
      j ∈ s.admitted := by
    intro w clock j x' hx' hp hs
    obtain ⟨x, hx, he⟩ := Write.job_of_apply hx'
    obtain ⟨rfl, -⟩ := he.eq_of_pending hp
    exact h hx hp hs
  cases hst with
  | wait => exact h
  | call => exact h
  | update _ n w hg hw => exact hregion w _
  | commit n w hg => exact hregion w _
  | failCommit => exact fun _ _ _ _ hs => by simp [Shared.commit] at hs
  | failTake n j job hloop hs hj hq => exact fun _ _ _ _ hs => by simp at hs
  | take n j job hloop hs hj hq =>
    intro i x' hx' hp _
    rw [State.modifyJob_job, Option.map_eq_some_iff] at hx'
    obtain ⟨_, hx, rfl⟩ := hx'
    by_cases hi : j = i
    · subst hi
      exact h hj (by simp [Job.pending, hq]) hs
    · rw [if_neg hi] at hp
      exact h hx hp hs

theorem serve (h : Registered s) (hst : Serve s t) : Registered t := by
  intro j x' hx' hp hopen
  have hs : s.stopping = false := by
    by_contra hs
    rw [hst.eq_of_stopping (by simpa using hs)] at hopen
    simp at hopen
  rcases hst.job_of hx' with ⟨x, c, hx, rfl⟩ | ⟨hnone, -, -⟩
  · exact hst.admitted_mono (h hx hp hs)
  · -- A job that is new was admitted just now.
    cases hst with
    | stop => simp [hnone] at hx'
    | cancel => simp [State.modifyJob_job, hnone] at hx'
    | source => simp [hnone] at hx'
    | session => simp [hnone] at hx'
    | sessionLost => simp [hnone] at hx'
    | enrol job run key hash error =>
      cases error with
      | some => simp [Shared.enrol] at hopen
      | none =>
        rw [Shared.enrol_mem, State.enqueue_job] at hx'
        split at hx'
        · next hj => exact hj ▸ List.mem_cons_self ..
        · simp [hnone] at hx'

end Registered

/-- Wherever requests are answered, pending jobs are registered. -/
theorem Reached.registered (h : Reaches site ok c)
    (hserves : c.thread.Serves) : Registered c.state := by
  refine (outline site).serving ?_ ?_ ?_ h hserves
  · intro s _ hready j x hx hp
    have := (State.hasPending_eq_false_iff _).1 hready.booting.quiet j x hx
    simp [hp] at this
  · exact fun c a _ hinv hJ => arrive_keeps (fun _ _ _ hst h => h.serve hst) hinv hJ a
  · exact fun c out o _ _ _ hg hJ => hJ.does (perform_does hg out)

/-- What was executed had been admitted. -/
theorem Reached.executed_admitted
    (h : Reaches site ok c) : ∀ j ∈ executed c.state.log, j ∈ c.state.admitted := by
  refine (outline site).invariant (J := fun s => ∀ j ∈ executed s.log, j ∈ s.admitted) ?_ ?_ ?_ ?_
    h.self
  · simp [executed]
  · refine fun c a _ hinv hJ => arrive_keeps (J := fun s => ∀ j ∈ executed s.log, j ∈ s.admitted)
      (fun s t _ hst h => ?_) hinv hJ a
    rw [hst.log_eq]
    exact fun j hj => hst.admitted_mono (h j hj)
  · intro c out o hok ho hinv hg hJ
    have hst := perform_does hg out
    show ∀ j ∈ executed (perform o out c.state).2.log, j ∈ (perform o out c.state).2.admitted
    rcases hst.executed_eq with ⟨he, ha⟩ | ⟨j, job, rfl, hs, hj, hq, he, ha, -⟩
    · rw [he, ha]; exact hJ
    · have hreg := Reached.registered hok.2 (Thread.serves_of_nextOp ho hg.1)
      rw [he, ha]
      rintro i hi
      rcases List.mem_cons.1 hi with rfl | hi
      · exact hreg hj (by simp [Job.pending, hq]) hs
      · exact hJ i hi
  · exact fun c b _ _ hJ => hJ

/-! ## After a `save` that failed -/

/-- The agent stops, and nothing more was executed or admitted. -/
def Closed (taken admitted : List JobId) (s : Shared) : Prop :=
  s.stopping = true ∧ executed s.log = taken ∧ s.admitted = admitted

theorem Closed.does {taken admitted : List JobId} (h : Closed taken admitted s)
    (hst : Does ph s o t) : Closed taken admitted t := by
  cases hst with
  | wait => exact h
  | call => exact h
  | update => exact h
  | commit => exact h
  | failCommit => exact ⟨rfl, h.2⟩
  | take n j job hloop hs hj hq => simp [h.1] at hs
  | failTake n j job hloop hs hj hq => simp [h.1] at hs

/-- Until the next restart the agent stays closed. -/
theorem Closed.along {c' : Agent} (h : Reaches site ok c)
    (hpath : (engine site).Path (fun _ i => ∀ b, i ≠ .restart b) c c') {taken admitted : List JobId}
    (hc : Closed taken admitted c.state) : Closed taken admitted c'.state := by
  refine (outline site).along ?_ ?_ ?_ ((outline site).sound h) hc hpath
  · refine fun c a _ hinv hJ => arrive_keeps (fun s t _ hst h => ?_) hinv hJ a
    rw [hst.eq_of_stopping h.1]
    exact ⟨rfl, h.2⟩
  · intro c out o _ _ _ hg hJ
    exact hJ.does (perform_does hg out)
  · exact fun c b hok _ _ => absurd rfl (hok b)

/-- **The ledger of jobs.**  In every reachable state at most one job is pending, in
memory and in the journal; a job that has ended in the journal stays as it is; each job
was executed at most once, and only after its admission was committed; memory and
journal have the same jobs unless a `save` has failed, and from then on nothing is
executed or admitted until the agent is restarted. -/
theorem job_ledger {site : Site} {c : Agent} (h : Reached site c) :
    c.state.mem.OnePending ∧ c.state.journal.OnePending ∧
    (∀ c', (engine site).Path always c c' → ∀ (j : JobId) (y : Job),
      c.state.journal.jobs[j]? = some y → y.pending = false →
      c'.state.journal.jobs[j]? = some y) ∧
    (executed c.state.log).Nodup ∧ (∀ j ∈ executed c.state.log, j ∈ c.state.admitted) ∧
    (c.state.stopping = false → c.state.mem.jobs = c.state.journal.jobs) ∧
    (c.state.stopping = true → ∀ c',
      (engine site).Path (fun _ i => ∀ b, i ≠ .restart b) c c' →
      Closed (executed c.state.log) c.state.admitted c'.state) := by
  have hinv := Reached.inv h
  refine ⟨fun _ _ _ _ => hinv.mem.one_pending, fun _ _ _ _ => hinv.journal.one_pending, ?_,
    (Reached.once h).nodup, Reached.executed_admitted h, hinv.jobs, fun hs c' hpath => ?_⟩
  · exact fun c' hpath j y hy hp => journal_settled h hpath hy hp
  · exact Closed.along h hpath ⟨hs, rfl, rfl⟩

/-- A start that runs to its end. -/
theorem job_ledger_start :
    let c := (engine (Sample.site false)).run initial
      (Sample.up ++ Sample.start "a" "j1" "start-one" :: Sample.working 16)
    executed c.state.log = ["j1"] ∧ ∀ j ∈ executed c.state.log, j ∈ c.state.admitted :=
  ⟨by decide, (job_ledger (path_run initial _)).2.2.2.2.1⟩

end Graphlab.Runtime
