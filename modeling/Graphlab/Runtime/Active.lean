import Graphlab.Runtime.Outline

/-!
# At most one run is active

A run is active until it is destroyed.  Only a start asks that no other run is active;
`destroy`, `recover` and `fault.remove` are admitted on a destroyed run as well, and
their jobs bring it back.  So a second run becomes active (`revived_two_active`).

Nothing else can do that.  As long as no job is admitted for a destroyed run while
another one is active, at most one run is active in every document the agent can leave
(`single_active`).  The invariant is `Solo`: wherever a job is pending, every run but
its own is destroyed.

## Main results

* `Solo.step`, `Solo.serve` — what the invariant survives.
* `single_active`, `two_active_of_revives`.
-/

namespace Graphlab.Runtime

open Std (TreeMap)
open Lib Supervised

/-- At most one run is in a state other than `destroyed`. -/
def State.OneActive (d : State) : Prop :=
  ∀ ⦃i k : RunId⦄ ⦃r r' : Run⦄, d.runs[i]? = some r → d.runs[k]? = some r' →
    r.state ≠ .destroyed → r'.state ≠ .destroyed → i = k

/-- Every run but `id` is destroyed. -/
def State.Only (d : State) (id : RunId) : Prop :=
  ∀ ⦃i : RunId⦄ ⦃r : Run⦄, d.runs[i]? = some r → i ≠ id → r.state = .destroyed

variable {d : State} {id : RunId} {job : Job}

theorem State.Only.oneActive (h : d.Only id) : d.OneActive := by
  intro i k r r' hr hr' hne hne'
  have hi : i = id := by_contra fun hi => hne (h hr hi)
  have hk : k = id := by_contra fun hk => hne' (h hr' hk)
  rw [hi, hk]

/-- A job of the document is pending on the run. -/
def State.Busy (d : State) (id : RunId) : Prop :=
  ∃ (j : JobId) (x : Job), d.jobs[j]? = some x ∧ x.pending = true ∧ x.runId = id

/-- At most one run is active, and where a job is pending it is the run of that job. -/
structure Solo (s : Shared) : Prop where
  mem : s.mem.OneActive
  journal : s.journal.OneActive
  mem_busy : ∀ ⦃id : RunId⦄, s.mem.Busy id → s.mem.Only id
  journal_busy : ∀ ⦃id : RunId⦄, s.journal.Busy id → s.journal.Only id ∧ s.mem.Only id
  agree : ∀ ⦃i k : RunId⦄, s.mem.Busy i → s.journal.Busy k → i = k

variable {s t : Shared}

theorem Sound.busy_unique {world : World} {log : List Event} (h : Sound world log d) {i k : RunId}
    (hi : d.Busy i) (hk : d.Busy k) : i = k := by
  obtain ⟨_, _, hx, hxp, rfl⟩ := hi
  obtain ⟨_, _, hy, hyp, rfl⟩ := hk
  obtain rfl := h.one_pending hx hy hxp hyp
  cases hx.symm.trans hy
  rfl

namespace Solo

/-- The worker is at work on the run: a job of memory or of the journal is pending on
it. -/
def Engaged (s : Shared) (id : RunId) : Prop := s.mem.Busy id ∨ s.journal.Busy id

theorem only_of_engaged (h : Solo s) (he : Engaged s id) : s.mem.Only id :=
  he.elim (fun hb => h.mem_busy hb) fun hb => (h.journal_busy hb).2

theorem engaged_unique (h : Solo s) (hinv : Inv s) {i k : RunId} (hi : Engaged s i)
    (hk : Engaged s k) : i = k := by
  rcases hi with hi | hi <;> rcases hk with hk | hk
  · exact hinv.mem.busy_unique hi hk
  · exact h.agree hi hk
  · exact (h.agree hk hi).symm
  · exact hinv.journal.busy_unique hi hk

/-- **The step rule.**  A step admits no job, and the runs it brings back are engaged. -/
theorem step (h : Solo s) (hinv : Inv s) (ht : Inv t)
    (hjournal : t.journal = s.journal ∨ t.journal = t.mem)
    (hrun : ∀ ⦃i : RunId⦄ ⦃r' : Run⦄, t.mem.runs[i]? = some r' → r'.state ≠ .destroyed →
      (∃ r, s.mem.runs[i]? = some r ∧ r.state ≠ .destroyed) ∨ Engaged s i)
    (hjob : ∀ ⦃i : RunId⦄, t.mem.Busy i → s.mem.Busy i) : Solo t := by
  -- Where a run is engaged, it is the only one active before and after.
  have hkeep : ∀ ⦃id : RunId⦄, Engaged s id → t.mem.Only id := by
    intro id he i r' hr' hi
    by_contra hne
    rcases hrun hr' hne with ⟨r, hr, hr_ne⟩ | hei
    · exact hr_ne (h.only_of_engaged he hr hi)
    · exact hi (h.engaged_unique hinv hei he)
  have hmem : t.mem.OneActive := by
    by_cases he : ∃ id, Engaged s id
    · obtain ⟨id, he⟩ := he
      exact (hkeep he).oneActive
    · have hold : ∀ ⦃i : RunId⦄ ⦃r' : Run⦄, t.mem.runs[i]? = some r' → r'.state ≠ .destroyed →
          ∃ r, s.mem.runs[i]? = some r ∧ r.state ≠ .destroyed := by
        intro i r' hr' hne
        exact (hrun hr' hne).resolve_right fun hi => he ⟨i, hi⟩
      intro i k r r' hr hr' hne hne'
      obtain ⟨_, hx, hxne⟩ := hold hr hne
      obtain ⟨_, hy, hyne⟩ := hold hr' hne'
      exact h.mem hx hy hxne hyne
  have hbusy : ∀ ⦃id : RunId⦄, t.mem.Busy id → t.mem.Only id := fun id hb => hkeep (.inl (hjob hb))
  rcases hjournal with hj | hj
  · refine ⟨hmem, hj ▸ h.journal, hbusy, fun id hb => ?_, fun i k hi hk => ?_⟩
    · rw [hj] at hb ⊢
      exact ⟨(h.journal_busy hb).1, hkeep (.inr hb)⟩
    · rw [hj] at hk
      exact h.agree (hjob hi) hk
  · refine ⟨hmem, hj ▸ hmem, hbusy, fun id hb => ?_, fun i k hi hk => ?_⟩
    · rw [hj] at hb ⊢
      exact ⟨hbusy hb, hbusy hb⟩
    · rw [hj] at hk
      exact ht.mem.busy_unique hi hk

end Solo

/-! ## Regions -/

theorem Owns.busy {j : JobId} {r : Run} (h : Owns s j job r) :
    s.mem.Busy job.runId :=
  ⟨j, job, h.job_eq, by simp [Job.pending, h.running], rfl⟩

/-- A region brings a run back only for a job that is pending on it. -/
theorem WriteGuard.engaged {ph : Phase} {w : Write} (hg : WriteGuard ph s w) {clock : Clock}
    {r r' : Run} (hr : s.mem.runs[id]? = some r) (he : w.RunEffect clock s.mem id r r')
    (hd : r.state = .destroyed) (hne : r'.state ≠ .destroyed) : Solo.Engaged s id := by
  cases he with
  | same => exact absurd hd hne
  | finished => exact absurd hd hne
  | telemetryError => exact absurd hd hne
  | faultDone => exact absurd hd hne
  | faultBegin job j hj hid =>
    obtain ⟨_, _, h⟩ := Write.beginRun_eq clock r j
    rw [h] at hne
    exact absurd hd hne
  | interrupted job j hj hp hid => exact .inl ⟨job, j, hj, hp, hid⟩
  | failed job error j hj hid =>
    obtain ⟨_, hfails⟩ := hg
    obtain ⟨old, hold, hrunning, hold_id⟩ := hfails.journal
    cases hj.symm.trans hfails.mem
    exact .inr ⟨job, old, hold, by simp [Job.pending, hrunning], hold_id.trans hid⟩
  | run write =>
    have hg := hg r hr
    rw [RunWrite.apply_state] at hne
    cases write with
    | state =>
      obtain ⟨j, job, ho, rfl, -⟩ := hg
      exact .inl ho.busy
    | armed =>
      obtain ⟨⟨_, _, ho, rfl⟩, -⟩ := hg
      exact .inl ho.busy
    | monitorFailed => cases hd.symm.trans hg.2
    | faultFailure => exact absurd hd hg.1
    | adopting => exact absurd hd hg.1
    | adopted => exact absurd hd hg.2.1
    | _ => exact absurd hd hne

theorem Write.busy_of_apply {w : Write} {clock : Clock}
    (h : (w.apply clock d).Busy id) : d.Busy id := by
  obtain ⟨j, _, hx', hp, rfl⟩ := h
  obtain ⟨_, hx, he⟩ := job_of_apply hx'
  obtain ⟨rfl, -⟩ := he.eq_of_pending hp
  exact ⟨j, _, hx, hp, rfl⟩

theorem State.busy_of_running {j : JobId} (hj : d.jobs[j]? = some job) (hq : job.state = .queued)
    (h : (d.modifyJob j fun j => { j with state := .running }).Busy id) : d.Busy id := by
  obtain ⟨k, _, hx', hp, rfl⟩ := h
  rw [State.modifyJob_job, Option.map_eq_some_iff] at hx'
  obtain ⟨x, hx, rfl⟩ := hx'
  by_cases hk : j = k
  · subst hk
    cases hj.symm.trans hx
    exact ⟨j, job, hj, by simp [Job.pending, hq], by simp⟩
  · rw [if_neg hk] at hp ⊢
    exact ⟨k, x, hx, hp, rfl⟩

namespace Solo

theorem does (h : Solo s) (hinv : Inv s) (ht : Inv t) {ph : Phase} {o : Op}
    (hst : Does ph s o t) : Solo t := by
  have hregion : ∀ (w : Write) (clock : Clock), WriteGuard ph s w → ∀ ⦃i : RunId⦄ ⦃r' : Run⦄,
      (w.apply clock s.mem).runs[i]? = some r' → r'.state ≠ .destroyed →
      (∃ r, s.mem.runs[i]? = some r ∧ r.state ≠ .destroyed) ∨ Engaged s i := by
    intro w clock hg i r' hr' hne
    obtain ⟨r, hr, he⟩ := Write.run_of_apply hr'
    by_cases hd : r.state = .destroyed
    · exact .inr (hg.engaged hr he hd hne)
    · exact .inl ⟨r, hr, hd⟩
  cases hst with
  | wait => exact ⟨h.mem, h.journal, h.mem_busy, h.journal_busy, h.agree⟩
  | call => exact ⟨h.mem, h.journal, h.mem_busy, h.journal_busy, h.agree⟩
  | update _ n w hg hw =>
    exact h.step hinv ht (.inl rfl) (hregion w _ hg) fun _ => Write.busy_of_apply
  | commit n w hg =>
    exact h.step hinv ht (.inr rfl) (hregion w _ hg.1) fun _ => Write.busy_of_apply
  | failCommit n w code hg =>
    exact h.step hinv ht (.inl rfl) (hregion w _ hg.1) fun _ => Write.busy_of_apply
  | take n j job hloop hs hj hq =>
    exact h.step hinv ht (.inr rfl) (fun i r hr hne => .inl ⟨r, hr, hne⟩) fun _ =>
      State.busy_of_running hj hq
  | failTake n j job hloop hs hj hq =>
    exact h.step hinv ht (.inl rfl) (fun i r hr hne => .inl ⟨r, hr, hne⟩) fun _ =>
      State.busy_of_running hj hq

theorem reboot (h : Solo s) (hinv : Inv s) (b : Boot) : Solo (reboot b s) where
  mem := h.journal
  journal := h.journal
  mem_busy _ hb := (h.journal_busy hb).1
  journal_busy _ hb := ⟨(h.journal_busy hb).1, (h.journal_busy hb).1⟩
  agree _ _ hi hk := hinv.journal.busy_unique hi hk

end Solo

/-! ## Requests -/

/-- From `s` to `t` a job is admitted for a destroyed run while another run is active. -/
def Revives (s t : Shared) : Prop :=
  ∃ (j : JobId) (job : Job) (r : Run) (id : RunId) (r' : Run),
    s.mem.jobs[j]? = none ∧ t.mem.jobs[j]? = some job ∧
    s.mem.runs[job.runId]? = some r ∧ r.state = .destroyed ∧
    s.mem.runs[id]? = some r' ∧ r'.state ≠ .destroyed

/-- No request revives a run. -/
def KeepsRetired (site : Site) : StepCondition :=
  fun c i => ∀ a, i = .request a → ¬ Revives c.state (arrive site a c.state)

theorem Serve.busy_of (hst : Serve s t) {i : RunId} (h : t.mem.Busy i) :
    s.mem.Busy i ∨ s.mem.hasPending = false := by
  obtain ⟨j, _, hx', hp, rfl⟩ := h
  rcases hst.job_of hx' with ⟨x, c, hx, rfl⟩ | ⟨-, hidle, -⟩
  · exact .inl ⟨j, x, hx, hp, rfl⟩
  · exact .inr hidle

theorem State.not_busy (h : d.hasPending = false) (i : RunId) : ¬ d.Busy i := by
  rintro ⟨j, x, hx, hp, -⟩
  simp [(State.hasPending_eq_false_iff d).1 h j x hx] at hp

namespace Solo

/-- A job is admitted where its run is the active one, or no run is active. -/
theorem enrol (h : Solo s) (hinv : Inv s) {run : Run} {key hash : String} (error : Option String)
    (hs : s.stopping = false) (hidle : s.mem.hasPending = false) (hnew : s.mem.jobs[job.id]? = none)
    (hrun : Admits s.clock s.mem job run)
    (hok : ¬ Revives s (s.enrol (s.mem.enqueue run key hash job) job.id error)) :
    Solo (s.enrol (s.mem.enqueue run key hash job) job.id error) := by
  have hbefore : s.mem.Only job.runId := by
    rcases hrun.new_or_next with hstart | ⟨r, -, hr, -⟩
    · cases hrun with
      | start topology profile hash workloads policy hop hrev hnew hall =>
        exact fun i r hr _ => hall i r hr
      | operate r hr => simp [hstart.2.1] at hr
      | apply r f detail hr => simp [hstart.2.1] at hr
      | remove r detail hr => simp [hstart.2.1] at hr
    · intro i x hx hi
      by_contra hne
      refine hok ⟨job.id, job, r, i, x, hnew, ?_, hr, ?_, hx, hne⟩
      · simp [State.enqueue_job]
      · by_contra hactive
        exact hi (h.mem hx hr hne hactive)
  have hafter : (s.mem.enqueue run key hash job).Only job.runId := by
    intro i r hr hi
    rw [State.enqueue_run, if_neg hi.symm] at hr
    exact hbefore hr hi
  have hbusy : ∀ ⦃i : RunId⦄, (s.mem.enqueue run key hash job).Busy i → i = job.runId := by
    rintro i ⟨j, x, hx, hp, rfl⟩
    rw [State.enqueue_job] at hx
    split at hx
    · cases hx
      rfl
    · exact absurd ⟨j, x, hx, hp, rfl⟩ (State.not_busy hidle _)
  have hquiet : ∀ i, ¬ s.journal.Busy i := by
    rintro i ⟨j, x, hx, hp⟩
    rw [← hinv.jobs hs] at hx
    exact State.not_busy hidle i ⟨j, x, hx, hp⟩
  cases error with
  | none =>
    exact ⟨hafter.oneActive, hafter.oneActive, fun i hi => hbusy hi ▸ hafter,
      fun i hi => ⟨hbusy hi ▸ hafter, hbusy hi ▸ hafter⟩,
      fun i k hi hk => (hbusy hi).trans (hbusy hk).symm⟩
  | some =>
    exact ⟨hafter.oneActive, h.journal, fun i hi => hbusy hi ▸ hafter,
      fun i hi => absurd hi (hquiet i), fun i k _ hk => absurd hk (hquiet k)⟩

/-- Saving a document with the jobs and the run states of memory. -/
theorem saveRequest (h : Solo s) (hinv : Inv s) {mem : State} (error : Option String)
    (ht : Inv (s.saveRequest mem error))
    (hrun : ∀ ⦃i : RunId⦄ ⦃r' : Run⦄, mem.runs[i]? = some r' →
      ∃ r, s.mem.runs[i]? = some r ∧ r'.state = r.state)
    (hjob : ∀ ⦃i : RunId⦄, mem.Busy i → s.mem.Busy i) : Solo (s.saveRequest mem error) := by
  refine h.step hinv ht ?_ (fun i r' hr' hne => ?_) fun i hi => hjob ?_
  · cases error
    · exact .inr rfl
    · exact .inl rfl
  · rw [Shared.saveRequest_mem] at hr'
    obtain ⟨r, hr, hstate⟩ := hrun hr'
    exact .inl ⟨r, hr, hstate ▸ hne⟩
  · rwa [Shared.saveRequest_mem] at hi

theorem serve (h : Solo s) (hinv : Inv s) (hst : Serve s t) (hok : ¬ Revives s t) : Solo t := by
  have ht : Inv t := hinv.serve_step hst
  have hmodify : ∀ (id : RunId) (f : Run → Run), (∀ r, (f r).state = r.state) →
      ∀ ⦃i : RunId⦄ ⦃r' : Run⦄, (s.mem.modifyRun id f).runs[i]? = some r' →
      ∃ r, s.mem.runs[i]? = some r ∧ r'.state = r.state := by
    intro id f hf i r' hr'
    rw [State.modifyRun_run, Option.map_eq_some_iff] at hr'
    obtain ⟨r, hr, rfl⟩ := hr'
    refine ⟨r, hr, ?_⟩
    split
    · exact hf r
    · rfl
  have hbusy : s.mem.hasPending = true → ∀ ⦃i : RunId⦄, t.mem.Busy i → s.mem.Busy i := by
    intro hp i hi
    exact (hst.busy_of hi).resolve_right (by simp [hp])
  cases hst with
  | stop => exact ⟨h.mem, h.journal, h.mem_busy, h.journal_busy, h.agree⟩
  | enrol job run key hash error hs hidle hsize hnew hkey hq hc hrun =>
    exact h.enrol hinv error hs hidle hnew hrun hok
  | cancel j job error hs hj hp =>
    have hpending : s.mem.hasPending = true := by
      by_contra hne
      exact State.not_busy (by simpa using hne) job.runId ⟨j, job, hj, hp, rfl⟩
    rw [Shared.saveRequest_mem] at hbusy
    exact h.saveRequest hinv error ht (fun i r' hr' => ⟨r', hr', rfl⟩) (hbusy hpending)
  | session id r d error hs hidle hr hstate =>
    exact h.saveRequest hinv error ht (hmodify id _ fun _ => rfl) fun i hi => hi
  | sessionLost id error hs hidle =>
    exact h.saveRequest hinv error ht (hmodify id _ fun _ => rfl) fun i hi => hi
  | source key c error hs hidle hnew =>
    exact h.saveRequest hinv error ht (fun i r' hr' => ⟨r', hr', rfl⟩) fun i hi => hi

/-- A request that revives no run. -/
theorem arrive (h : Solo s) (hinv : Inv s) (site : Site) (a : Arrival)
    (hok : ¬ Revives s (arrive site a s)) : Solo (arrive site a s) := by
  have hcases := arrive_cases site a s
  generalize Runtime.arrive site a s = t at hcases hok ⊢
  rcases hcases with hst | hst
  · cases hst with
    | refl => exact h
    | single hst => exact h.serve hinv hst hok
  · clear hok
    suffices Inv t ∧ Solo t from this.2
    induction hst with
    | refl => exact ⟨hinv, h⟩
    | tail _ hst ih =>
      refine ⟨ih.1.serve_step hst.1, ih.2.serve ih.1 hst.1 ?_⟩
      rintro ⟨j, job, r, id, r', hnone, hsome, -⟩
      simp [hst.2, hnone] at hsome

end Solo

/-- **At most one run is active** in every state reached without reviving a run. -/
theorem single_active {site : Site} {c : Agent} (h : Reaches site (KeepsRetired site) c) :
    c.state.mem.OneActive ∧ c.state.journal.OneActive := by
  have hsolo : Solo c.state := by
    refine (outline site).invariant (J := Solo) ?_ ?_ ?_ ?_ h
    · constructor <;> simp [State.OneActive, State.Busy]
    · exact fun c a hok hinv hJ => hJ.arrive hinv site a (hok a rfl)
    · exact fun c out o _ _ hinv hg hJ => hJ.does hinv (hinv.perform hg out) (perform_does hg out)
    · exact fun c b _ hinv hJ => hJ.reboot hinv b
  exact ⟨hsolo.mem, hsolo.journal⟩

/-- A start on an empty state directory. -/
theorem started_single_active :
    ((engine (Sample.site false)).run initial
      (Sample.up ++ [Sample.start "a" "j1" "start-one"])).state.mem.OneActive := by
  have hup : Reaches (Sample.site false) (KeepsRetired (Sample.site false))
      ((engine (Sample.site false)).run initial Sample.up) := by
    refine Path.run .refl _ fun i hi c a ha => ?_
    subst ha
    simp [Sample.up, Sample.working] at hi
  have hempty : ((engine (Sample.site false)).run initial Sample.up).state.mem.runs.isEmpty :=
    by decide
  rw [run_append]
  refine (single_active (.step _ hup ?_)).1
  rintro a - ⟨j, job, r, id, r', -, -, hr, -⟩
  simp [TreeMap.getElem?_of_isEmpty hempty] at hr

theorem State.not_oneActive {i k : RunId} {x y : RunState} (hi : d.runs[i]?.map Run.state = some x)
    (hk : d.runs[k]?.map Run.state = some y) (hx : x ≠ .destroyed) (hy : y ≠ .destroyed)
    (hne : i ≠ k) : ¬ d.OneActive := by
  obtain ⟨_, hr, rfl⟩ := Option.map_eq_some_iff.1 hi
  obtain ⟨_, hr', rfl⟩ := Option.map_eq_some_iff.1 hk
  exact fun h => hne (h hr hr' hx hy)

/-- A request that admits a job and saves leaves it queued in the journal. -/
theorem arrive_admits {site : Site} {a : Arrival} {j : JobId} (hnone : s.mem.jobs[j]? = none)
    (hsome : (arrive site a s).mem.jobs[j]? = some job)
    (hsaved : (arrive site a s).stopping = false) :
    (arrive site a s).journal = (arrive site a s).mem ∧ Serve s (arrive site a s) ∧
      job.state = .queued := by
  have hcases := arrive_cases site a s
  generalize arrive site a s = t at *
  rcases hcases with hst | hst
  · cases hst with
    | refl => simp [hnone] at hsome
    | single hst =>
      refine ⟨?_, hst, ?_⟩
      · cases hst with
        | stop => simp at hsaved
        | cancel i x error => cases error <;> simp_all [Shared.saveRequest]
        | enrol x run key hash error => cases error <;> simp_all [Shared.enrol]
        | session i r d error => cases error <;> simp_all [Shared.saveRequest]
        | sessionLost i error => cases error <;> simp_all [Shared.saveRequest]
        | source key c error => cases error <;> simp_all [Shared.saveRequest]
      · rcases hst.job_of hsome with ⟨x, c, hx, -⟩ | ⟨-, -, hq⟩
        · simp [hnone] at hx
        · exact hq
  · simp [hst.jobs_eq, hnone] at hsome

/-- The condition is needed: where a request revives a run and is saved, a crash right
after it leaves two runs active. -/
theorem two_active_of_revives {site : Site} {c : Agent} (hserves : c.thread.Serves) {a : Arrival}
    (h : Revives c.state (arrive site a c.state))
    (hsaved : (arrive site a c.state).stopping = false) :
    ¬ ((engine site).run c [.request a, .restart {}, .work {}]).state.mem.OneActive := by
  obtain ⟨j, job, _, id, _, hnone, hsome, hr, hd, hr', hne⟩ := h
  obtain ⟨hjournal, hst, hq⟩ := arrive_admits hnone hsome hsaved
  rw [run_cons, step_request (engine site) hserves]
  show ¬ (Write.apply {} (arrive site a c.state).journal .interrupted).OneActive
  rw [hjournal]
  generalize arrive site a c.state = t at *
  have hafter : ∀ {i : RunId} {x : Run}, t.mem.runs[i]? = some x →
      (Write.apply {} t.mem .interrupted).runs[i]? = some (Write.interruptRun t.mem i x) := by
    intro i x hx
    rw [Write.apply_run, hx]
    rfl
  have hbusy : t.mem.jobs.toList.any (fun e => e.2.pending && e.2.runId == job.runId) = true := by
    simp only [List.any_eq_true, Bool.and_eq_true, beq_iff_eq]
    exact ⟨(j, job), TreeMap.mem_toList_iff_getElem?_eq_some.2 hsome, by simp [Job.pending, hq], rfl⟩
  -- The run of the job is sent to reconciliation, and the other run is not destroyed.
  obtain ⟨_, hr₁, -⟩ := hst.run hr
  obtain ⟨_, hr₂, _, _, _, _, _, rfl, -⟩ := hst.run hr'
  intro hone
  obtain rfl : job.runId = id := by
    refine hone (hafter hr₁) (hafter hr₂) ?_ ?_
    · simp [Write.interruptRun, hbusy]
    · unfold Write.interruptRun
      split
      · simp
      · exact hne
  cases hr.symm.trans hr'
  exact hne hd

/-- A run `a` is started and destroyed, a run `b` is started, and `a` is destroyed once
more. -/
def revival : List Choice :=
  Sample.up ++ Sample.start "a" "j1" "start-one" :: Sample.working 16 ++
    Sample.operate "a" "destroy" "1" "j2" "destroy-one" :: Sample.working 12 ++
    Sample.start "b" "j3" "start-two" :: Sample.working 16 ++
    Sample.operate "a" "destroy" "2" "j4" "destroy-two" :: Sample.working 4

/-- Without any failure two runs are active. -/
theorem revived_two_active : ∃ c, Reached (Sample.site false) c ∧ ¬ c.state.mem.OneActive :=
  ⟨(engine (Sample.site false)).run initial revival, path_run _ revival,
    State.not_oneActive (i := "a") (k := "b") (x := .destroying) (y := .ready)
      (by decide +kernel) (by decide +kernel) (by decide) (by decide) (by decide)⟩

end Graphlab.Runtime
