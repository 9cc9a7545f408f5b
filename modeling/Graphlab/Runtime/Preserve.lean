import Graphlab.Runtime.Guard

/-!
# The invariant is kept

Requests, restarts and guarded operations keep `Inv`.  A region changes runs, jobs and
faults pointwise, so the proof is about one run, one job and one fault at a time.

## Main results

* `Inv.serve` — requests.
* `Inv.reboot` — restarts.
* `Inv.perform` — guarded operations.
-/

namespace Graphlab.Runtime

open Std (TreeMap)
open Lib (Phase)

/-! ## Regions -/

variable {r : Run}

section Regions

variable {s : Shared} {ph : Phase} {w : Write} {clock : Clock}

variable {x : Job}

/-- While a job is executed none is queued. -/
theorem Inv.not_queued (h : Inv s) {j i : JobId} {job : Job} (ho : Owns s j job r)
    (hx : s.mem.jobs[i]? = some x) (hq : x.state = .queued) : False := by
  have hij : i = j := h.mem.one_pending hx ho.job_eq (by simp [Job.pending, hq])
    (by simp [Job.pending, ho.running])
  subst hij
  have : x = job := by simpa [hx] using ho.job_eq
  subst this
  exact absurd ho.running (by simp [hq])

theorem not_queued_of_idle {mem : State} (h : mem.hasPending = false) {i : JobId}
    (hx : mem.jobs[i]? = some x) (hq : x.state = .queued) : False := by
  have := (State.hasPending_eq_false_iff mem).1 h i x hx
  simp [Job.pending, hq] at this

/-- Only the failure handler makes a fault live that was not. -/
theorem WriteGuard.live_before (hg : WriteGuard ph s w) {id : RunId}
    (hr : s.mem.runs[id]? = some r) {fid : FaultId} {f f' : Fault} (hf : r.faults[fid]? = some f)
    (he : w.FaultEffect clock s.mem id fid f f') (hlive : f'.state.live = true) :
    f.state.live = true ∨ ∃ error, w = .run id (.faultFailure fid error) := by
  cases he with
  | same => exact .inl hlive
  | set write value hset =>
    have hg := hg r hr
    cases write with
    | faultCleared => cases hset; simp [FaultState.live] at hlive
    | faultExpiring =>
      cases hset
      obtain ⟨g, hfg, hg⟩ := hg
      cases hfg.symm.trans hf
      exact .inl (by simp [hg, FaultState.live])
    | faultExpired => cases hset; simp [FaultState.live] at hlive
    | faultFailure i e => cases hset; exact .inr ⟨e, rfl⟩
    | faultRecovered => cases hset; simp [FaultState.live] at hlive
    | _ => simp [RunWrite.setsFault] at hset
  | cancelled => simp [FaultState.live] at hlive
  | applying job j hj hid hfid hop =>
    obtain ⟨j', r', ho, hg⟩ := hg
    cases hj.symm.trans ho.job_eq
    subst hid hfid
    cases hr.symm.trans ho.run_eq
    rcases hg with ⟨-, g, hfg, hg⟩ | hg
    · cases hfg.symm.trans hf
      exact .inl (by simp [hg, FaultState.live])
    · simp [hop] at hg
  | removing job j hj hid hfid hop hne =>
    obtain ⟨j', r', ho, hg⟩ := hg
    cases hj.symm.trans ho.job_eq
    rcases hg with ⟨hg, -⟩ | hg
    · exact absurd hg hne
    · exact .inl (hop hg)
  | done job cancel observed j hj hid hfid =>
    obtain ⟨_, _, _, ho, hfg, hg⟩ := hg
    cases hj.symm.trans ho.job_eq
    subst hid hfid
    cases hr.symm.trans ho.run_eq
    cases hfg.symm.trans hf
    rcases hg with ⟨-, hg, -⟩ | ⟨-, -, hg, -⟩ <;> exact .inl (by simp [hg, FaultState.live])

/-- A fault that is live after a region is alone at its place before it. -/
theorem Inv.soleAt_of_live (h : Inv s) (hg : WriteGuard ph s w) {id : RunId}
    (hr : s.mem.runs[id]? = some r) {fid : FaultId} {f f' : Fault} (hf : r.faults[fid]? = some f)
    (he : w.FaultEffect clock s.mem id fid f f') (hlive : f'.state.live = true) :
    r.SoleAt fid f := by
  rcases hg.live_before hr hf he hlive with hbefore | ⟨error, rfl⟩
  · exact h.mem.sole hr hf hbefore
  · obtain ⟨-, -, _, hfg, -, hsole⟩ := hg r hr
    cases hfg.symm.trans hf
    exact hsole

theorem Inv.sole_apply (h : Inv s) (hg : WriteGuard ph s w) {id : RunId} {r' : Run}
    (hr : s.mem.runs[id]? = some r) (he : w.RunEffect clock s.mem id r r') : r'.Sole := by
  intro k f' hf' hlive i g' hg' hne hglive hedge hdirection
  obtain ⟨_, hf, hfe⟩ := he.fault_of_apply hf'
  obtain ⟨_, hgf, hge⟩ := he.fault_of_apply hg'
  rw [hfe.id_eq.2.1, hge.id_eq.2.1] at hedge
  rw [hfe.id_eq.2.2, hge.id_eq.2.2] at hdirection
  -- Only one of the two was changed; the other was live all along.
  rcases hge.eq_or_faultOf with rfl | hi
  · exact h.soleAt_of_live hg hr hf hfe hlive hgf hne hglive hedge hdirection
  · rcases hfe.eq_or_faultOf with rfl | hk
    · exact h.soleAt_of_live hg hr hgf hge hglive hf hne.symm hlive hedge.symm hdirection.symm
    · exact hne (by simpa [hi] using hk)

/-- A change of a run that a queued job can bear: the state of a run that is being
prepared stays, a run that may be stopped stays so or needs reconciliation, and a
queued fault stays queued. -/
private theorem awaits_run {r' : Run} (ha : Awaits x r)
    (hstart : r.state = .preparing → (∀ fid : FaultId, r.faults[fid]? = none) →
      r'.state = .preparing ∧ ∀ fid : FaultId, r'.faults[fid]? = none)
    (hstop : r'.state = r.state ∨ r'.state = .reconciling)
    (hfault : ∀ f, r.faults[x.faultId]? = some f → f.state = .queued →
      ∃ f', r'.faults[x.faultId]? = some f' ∧ f'.state = .queued) : Awaits x r' := by
  unfold Awaits at ha ⊢
  split at ha
  · exact hstart ha.1 ha.2
  · rcases hstop with h | h
    · rwa [h]
    · exact .inr (.inr h)
  · obtain ⟨f, hf, hq⟩ := ha
    exact hfault f hf hq
  · trivial

/-- A change of a fault that is known and not queued. -/
private theorem awaits_fault (ha : Awaits x r) {write : RunWrite} {i : FaultId} {f : Fault}
    {value : FaultState} (hset : write.setsFault = some (i, value)) (hf : r.faults[i]? = some f)
    (hne : f.state ≠ .queued)
    (hstate : (write.apply clock r).state = r.state ∨ (write.apply clock r).state = .reconciling) : Awaits x (write.apply clock r) := by
  refine awaits_run ha (fun _ hnone => ?_) hstate fun g hg hq => ?_
  · simp [hnone] at hf
  · have hi : i ≠ x.faultId := by
      rintro rfl
      cases hg.symm.trans hf
      exact hne hq
    exact ⟨g, by simp [RunWrite.apply_fault, hg, RunWrite.onFault, hset, hi], hq⟩

/-- What a queued job relies on survives every guarded region. -/
theorem Inv.awaits_apply (h : Inv s) (hg : WriteGuard ph s w) {j : JobId}
    (hx : s.mem.jobs[j]? = some x) (hq : x.state = .queued) (hends : w.ends j x = false) {r' : Run}
    (hr : s.mem.runs[x.runId]? = some r) (ha : Awaits x r)
    (he : w.RunEffect clock s.mem x.runId r r') : Awaits x r' := by
  have hidle : s.mem.hasPending = false → False := fun hp => not_queued_of_idle hp hx hq
  cases he with
  | same => exact ha
  | run write =>
    have hg := hg r hr
    cases write with
    | state => obtain ⟨_, _, ho, -⟩ := hg; exact (h.not_queued ho hx hq).elim
    | armed => obtain ⟨⟨_, _, ho, -⟩, -⟩ := hg; exact (h.not_queued ho hx hq).elim
    | faultCleared => obtain ⟨⟨_, _, ho, -⟩, -⟩ := hg; exact (h.not_queued ho hx hq).elim
    | adopting => exact (hidle hg.2).elim
    | adopted => exact (hidle hg.2.2).elim
    | faultRecovered => exact (hidle hg.2).elim
    | monitorFailed =>
      refine awaits_run ha (fun h => ?_) (.inr rfl) fun f hf hq => ⟨f, hf, hq⟩
      simp [hg.2] at h
    | faultExpiring =>
      obtain ⟨f, hf, hstate⟩ := hg
      exact awaits_fault ha rfl hf (by simp [hstate]) (.inl rfl)
    | faultExpired =>
      obtain ⟨-, f, hf, hstate⟩ := hg
      exact awaits_fault ha rfl hf (by simp [hstate]) (.inl rfl)
    | faultFailure =>
      obtain ⟨-, -, _, hf, hstate, -⟩ := hg
      exact awaits_fault ha rfl hf (hstate.resolve_right hidle) (.inr rfl)
    | _ => exact ha
  | finished => obtain ⟨_, ho, -⟩ := hg; exact (h.not_queued ho hx hq).elim
  | failed =>
    -- The failed job is the only pending one, and it was taken.
    obtain ⟨_, hfail⟩ := hg
    obtain rfl := hfail.alone j x hx (by simp [Job.pending, hq])
    simp [Write.ends] at hends
  | telemetryError => exact ha
  | faultBegin => obtain ⟨_, _, ho, -⟩ := hg; exact (h.not_queued ho hx hq).elim
  | faultDone =>
    obtain ⟨_, _, _, ho, -⟩ := hg
    exact (h.not_queued ho hx hq).elim
  | interrupted => simp [Write.ends, Job.pending, hq] at hends

/-- A guarded region leaves a sound document. -/
theorem Inv.sound_apply (h : Inv s) (hg : WriteGuard ph s w) :
    Sound s.world s.log (w.apply clock s.mem) where
  run_id hr := by
    obtain ⟨r, hr, he⟩ := Write.run_of_apply hr
    exact he.id_eq.trans (h.mem.run_id hr)
  fault_id hr hf := by
    obtain ⟨r, hr, he⟩ := Write.run_of_apply hr
    obtain ⟨_, hf, hfe⟩ := he.fault_of_apply hf
    exact hfe.id_eq.1.trans (h.mem.fault_id hr hf)
  sole hr := by
    obtain ⟨r, hr, he⟩ := Write.run_of_apply hr
    exact h.sole_apply hg hr he
  one_pending hx hy hpx hpy := by
    obtain ⟨x, hx, hxe⟩ := Write.job_of_apply hx
    obtain ⟨_, hy, hye⟩ := Write.job_of_apply hy
    exact h.mem.one_pending hx hy ((hxe.eq_of_pending hpx).1 ▸ hpx)
      ((hye.eq_of_pending hpy).1 ▸ hpy)
  waiting hx hq := by
    obtain ⟨x, hx, hxe⟩ := Write.job_of_apply hx
    obtain ⟨rfl, hends⟩ := hxe.eq_of_pending (by simp [Job.pending, hq])
    obtain ⟨r, hr, ha⟩ := h.mem.waiting hx hq
    obtain ⟨r', hr', he⟩ := Write.run_apply hr
    exact ⟨r', hr', h.awaits_apply hg hx hq hends hr ha he⟩
  workers := fun {id x} hx => by
    obtain ⟨r, hr, c, hc, hcx⟩ := h.mem.workers hx
    obtain ⟨r', hr', he⟩ := Write.run_apply hr
    refine ⟨r', hr', ?_⟩
    rcases he.captures_eq with heq | ⟨rfl, -⟩ | ⟨captures, rfl, -⟩
    · exact ⟨c, heq ▸ hc, hcx⟩
    · exact absurd hx ((hg r hr).1 x)
    · exact absurd hx ((hg r hr).1 x)
  epochs hx := by
    obtain ⟨_, hr, hle⟩ := h.mem.epochs hx
    obtain ⟨r', hr', he⟩ := Write.run_apply hr
    exact ⟨r', hr', hle.trans he.captureEpoch_le⟩

end Regions

/-! ## Admission -/

section Admission

variable {clock : Clock} {d : State} {job : Job} {run : Run}

private theorem not_directionBusy {f g : Fault} {i : FaultId} (h : directionBusy r f = false)
    (hg : r.faults[i]? = some g) (hlive : g.state.live = true) (hedge : g.edge = f.edge)
    (hdirection : g.direction = f.direction) : False := by
  simp only [directionBusy, List.any_eq_false, Bool.and_eq_true, beq_iff_eq] at h
  exact h (i, g) (TreeMap.mem_toList_iff_getElem?_eq_some.2 hg) ⟨⟨hlive, hedge⟩, hdirection⟩

/-- Admission checks that the place of a new fault is free. -/
theorem Admits.sole (h : Admits clock d job run)
    (hsole : ∀ r, d.runs[job.runId]? = some r → r.Sole) : run.Sole := by
  intro k f hf hlive i g hg hne hglive hedge hdirection
  rcases h.fault hf with ⟨r, hr, hf⟩ | ⟨-, hk, -, -, -, r, hr, -, hfree⟩
  · rcases h.fault hg with ⟨r', hr', hg⟩ | ⟨-, -, -, -, -, r', hr', -, hfree⟩
    · cases hr.symm.trans hr'
      exact hsole r hr hf hlive hg hne hglive hedge hdirection
    · cases hr.symm.trans hr'
      exact not_directionBusy hfree hf hlive hedge.symm hdirection.symm
  · rcases h.fault hg with ⟨r', hr', hg⟩ | ⟨-, hi, -⟩
    · cases hr.symm.trans hr'
      exact not_directionBusy hfree hg hglive hedge hdirection
    · exact hne (hi.trans hk.symm)

/-- Admission establishes what the job relies on. -/
theorem Admits.awaits (h : Admits clock d job run) : Awaits job run := by
  cases h with
  | start topology profile hash workloads policy hop => simp [Awaits, hop]
  | operate r hr hrev hop =>
    rcases hop with ⟨hop, hstate⟩ | ⟨hop, -⟩ | hop | hop
    · simp only [Awaits, hop]
      rcases hstate with hstate | hstate
      · exact .inl hstate
      · exact .inr (.inl hstate)
    all_goals simp [Awaits, hop]
  | apply r f detail hr hrev hop hstate hid hnew hq =>
    simp only [Awaits, hop]
    exact ⟨f, TreeMap.getElem?_insert_self, hq⟩
  | remove r detail hr hrev hop => simp [Awaits, hop]

end Admission

/-! ## Sound documents -/

namespace Sound

variable {world : World} {log : List Event} {d : State}

/-- An event that is not an arm call adds nothing to what the history demands. -/
theorem log_cons (h : Sound world log d) {e : Event}
    (he : ∀ run error, e ≠ .called (.captureControl run .arm) error) :
    Sound world (e :: log) d :=
  { h with
    epochs := fun {run error} hx => by
      rcases List.mem_cons.1 hx with hx | hx
      · exact absurd hx.symm (he run error)
      · exact h.epochs hx }

/-- A change of one job that keeps what others rely on. -/
theorem modifyJob (h : Sound world log d) (j : JobId) (f : Job → Job)
    (hf : ∀ x, (f x).runId = x.runId ∧ (f x).operation = x.operation ∧
      (f x).faultId = x.faultId)
    (hp : ∀ x, d.jobs[j]? = some x → (f x).pending = true → x.pending = true)
    (hq : ∀ x, (f x).state = .queued → x.state = .queued) :
    Sound world log (d.modifyJob j f) where
  run_id := h.run_id
  fault_id := h.fault_id
  sole := h.sole
  one_pending := fun {i k x' y'} hx hy hpx hpy => by
    rw [State.modifyJob_job, Option.map_eq_some_iff] at hx hy
    obtain ⟨x, hx, rfl⟩ := hx
    obtain ⟨y, hy, rfl⟩ := hy
    refine h.one_pending hx hy ?_ ?_
    · by_cases hi : j = i
      · subst hi; exact hp x hx (by simpa using hpx)
      · simpa [hi] using hpx
    · by_cases hi : j = k
      · subst hi; exact hp y hy (by simpa using hpy)
      · simpa [hi] using hpy
  waiting := fun {i x'} hx hxq => by
    rw [State.modifyJob_job, Option.map_eq_some_iff] at hx
    obtain ⟨x, hx, rfl⟩ := hx
    by_cases hi : j = i
    · subst hi
      simp only [if_true] at hxq ⊢
      obtain ⟨hrun, hop, hfid⟩ := hf x
      obtain ⟨r, hr, ha⟩ := h.waiting hx (hq x hxq)
      refine ⟨r, by rw [hrun]; exact hr, ?_⟩
      unfold Awaits at ha ⊢
      rwa [hop, hfid]
    · simp only [hi, if_false] at hxq ⊢
      exact h.waiting hx hxq
  workers := h.workers
  epochs := h.epochs

/-- A change of one run in fields nobody relies on. -/
theorem modifyRun (h : Sound world log d) (id : RunId) (f : Run → Run)
    (hf : ∀ r, (f r).id = r.id ∧ (f r).faults = r.faults ∧ (f r).state = r.state ∧
      (f r).captures = r.captures ∧ (f r).captureEpoch = r.captureEpoch) :
    Sound world log (d.modifyRun id f) := by
  -- Whichever run it is, it keeps the five fields.
  have hget : ∀ {i : RunId} {r : Run}, d.runs[i]? = some r → ∃ r',
      (d.modifyRun id f).runs[i]? = some r' ∧ r'.id = r.id ∧ r'.faults = r.faults ∧
      r'.state = r.state ∧ r'.captures = r.captures ∧ r'.captureEpoch = r.captureEpoch := by
    intro i r hr
    refine ⟨_, by rw [State.modifyRun_run, hr]; rfl, ?_⟩
    split
    · exact hf r
    · exact ⟨rfl, rfl, rfl, rfl, rfl⟩
  have hof : ∀ {i : RunId} {r' : Run}, (d.modifyRun id f).runs[i]? = some r' → ∃ r,
      d.runs[i]? = some r ∧ r'.id = r.id ∧ r'.faults = r.faults := by
    intro i r' hr'
    rw [State.modifyRun_run, Option.map_eq_some_iff] at hr'
    obtain ⟨r, hr, rfl⟩ := hr'
    refine ⟨r, hr, ?_⟩
    split
    · exact ⟨(hf r).1, (hf r).2.1⟩
    · exact ⟨rfl, rfl⟩
  constructor
  · intro i r' hr'
    obtain ⟨r, hr, hid, -⟩ := hof hr'
    exact hid.trans (h.run_id hr)
  · intro i r' fid g hr' hg
    obtain ⟨r, hr, -, hfaults⟩ := hof hr'
    exact h.fault_id hr (hfaults ▸ hg)
  · intro i r' hr'
    obtain ⟨r, hr, -, hfaults⟩ := hof hr'
    have := h.sole hr
    unfold Run.Sole Run.SoleAt at this ⊢
    rwa [hfaults]
  · exact h.one_pending
  · intro j x hx hq
    obtain ⟨r, hr, ha⟩ := h.waiting hx hq
    obtain ⟨r', hr', -, hfaults, hstate, -⟩ := hget hr
    refine ⟨r', hr', ?_⟩
    unfold Awaits at ha ⊢
    rwa [hfaults, hstate]
  · intro i x hx
    obtain ⟨r, hr, c, hc, hcx⟩ := h.workers hx
    obtain ⟨r', hr', -, -, -, hcaptures, -⟩ := hget hr
    exact ⟨r', hr', c, hcaptures ▸ hc, hcx⟩
  · intro run error hx
    obtain ⟨_, hr, hle⟩ := h.epochs hx
    obtain ⟨r', hr', -, -, -, -, hepoch⟩ := hget hr
    exact ⟨r', hr', hepoch ▸ hle⟩

/-- Admission on a document with nothing pending. -/
theorem enrol (h : Sound world log d) {clock : Clock} {job : Job} {run : Run} {key hash : String}
    (hidle : d.hasPending = false) (hrun : Admits clock d job run) :
    Sound world log (d.enqueue run key hash job) := by
  have hruns := d.enqueue_run run key hash job
  have hjobs := d.enqueue_job run key hash job
  have hpending := (State.hasPending_eq_false_iff d).1 hidle
  -- A run that was there before keeps its captures and its epoch.
  have hkeep : ∀ {id : RunId} {r : Run}, d.runs[id]? = some r → ∃ r',
      (if job.runId = id then some run else d.runs[id]?) = some r' ∧ r'.captures = r.captures ∧
      r'.captureEpoch = r.captureEpoch := by
    intro id r hr
    split
    · next hid =>
        subst hid
        rcases hrun.new_or_next with ⟨-, hnew, -⟩ | ⟨r', -, hr', faults, timeline, rfl⟩
        · simp [hnew] at hr
        · cases hr.symm.trans hr'
          exact ⟨_, rfl, rfl, rfl⟩
    · exact ⟨r, hr, rfl, rfl⟩
  constructor
  · intro id r hr
    rw [hruns] at hr
    split at hr
    · next hid =>
        cases hr
        rcases hrun.new_or_next with ⟨-, -, _, _, _, _, _, rfl⟩ | ⟨r', -, hr', _, _, rfl⟩
        · exact hid
        · exact (h.run_id hr').trans hid
    · exact h.run_id hr
  · intro id r fid f hr hf
    rw [hruns] at hr
    split at hr
    · cases hr
      rcases hrun.fault hf with ⟨r', hr', hf'⟩ | ⟨-, -, hfid, -⟩
      · exact h.fault_id hr' hf'
      · exact hfid
    · exact h.fault_id hr hf
  · intro id r hr
    rw [hruns] at hr
    split at hr
    · cases hr
      exact hrun.sole fun r hr => h.sole hr
    · exact h.sole hr
  · intro i k x y hx hy hpx hpy
    rw [hjobs] at hx hy
    split at hx
    · next hi =>
        split at hy
        · next hk => exact hi.symm.trans hk
        · simp [hpending k y hy] at hpy
    · simp [hpending i x hx] at hpx
  · intro j x hx hq
    rw [hjobs] at hx
    split at hx
    · cases hx
      exact ⟨run, by rw [hruns, if_pos rfl], hrun.awaits⟩
    · exact (not_queued_of_idle hidle hx hq).elim
  · intro id x hx
    obtain ⟨r, hr, c, hc, hcx⟩ := h.workers hx
    obtain ⟨r', hr', hcaptures, -⟩ := hkeep hr
    exact ⟨r', by rw [hruns]; exact hr', c, hcaptures ▸ hc, hcx⟩
  · intro old error hx
    obtain ⟨_, hr, hle⟩ := h.epochs hx
    obtain ⟨r', hr', -, hepoch⟩ := hkeep hr
    exact ⟨r', by rw [hruns]; exact hr', hepoch ▸ hle⟩

end Sound

/-! ## The invariant -/

namespace Inv

variable {s t : Shared}

/-- A change of memory that keeps it sound, committed or not. -/
theorem saveRequest (h : Inv s) {mem : State} (hmem : Sound s.world s.log mem)
    (error : Option String) : Inv (s.saveRequest mem error) := by
  cases error with
  | none => exact ⟨hmem, hmem, fun _ => rfl⟩
  | some => exact ⟨hmem, h.journal, fun hs => by simp [Shared.saveRequest] at hs⟩

theorem enrol (h : Inv s) {mem : State} (hmem : Sound s.world s.log mem) (job : JobId)
    (error : Option String) : Inv (s.enrol mem job error) := by
  cases error with
  | none => exact ⟨hmem, hmem, fun _ => rfl⟩
  | some => exact ⟨hmem, h.journal, fun hs => by simp [Shared.enrol] at hs⟩

/-- A change a request makes keeps the invariant. -/
theorem serve_step (h : Inv s) (hst : Serve s t) : Inv t := by
  cases hst with
  | stop => exact ⟨h.mem, h.journal, fun hs => by simp at hs⟩
  | cancel j job error hs hj hp =>
    refine h.saveRequest (h.mem.modifyJob j _ ?_ ?_ ?_) error
    · exact fun x => ⟨rfl, rfl, rfl⟩
    · exact fun x _ hx => hx
    · exact fun x hx => hx
  | enrol job run key hash error hs hidle hsize hnew hkey hq hc hrun =>
    exact h.enrol (h.mem.enrol hidle hrun) job.id error
  | session id r d error hs hidle hr hstate =>
    refine h.saveRequest (h.mem.modifyRun id _ ?_) error
    exact fun _ => ⟨rfl, rfl, rfl, rfl, rfl⟩
  | sessionLost id error hs hidle =>
    refine h.saveRequest (h.mem.modifyRun id _ ?_) error
    exact fun _ => ⟨rfl, rfl, rfl, rfl, rfl⟩
  | source key c error hs hidle hnew =>
    refine h.saveRequest ?_ error
    exact ⟨h.mem.run_id, h.mem.fault_id, h.mem.sole, h.mem.one_pending, h.mem.waiting,
      h.mem.workers, h.mem.epochs⟩

/-- Requests keep the invariant. -/
theorem serve (h : Inv s) (hst : Served s t) : Inv t := by
  induction hst with
  | refl => exact h
  | tail _ hstep ih => exact ih.serve_step hstep

/-- Restarts keep the invariant: the journal is as sound as memory. -/
theorem reboot (h : Inv s) (b : Boot) : Inv (reboot b s) :=
  have hlog : Sound s.world (.restarted :: s.log) s.journal := h.journal.log_cons (by simp)
  ⟨hlog, hlog, fun _ => rfl⟩

/-! ### Operations -/

/-- Taking a job. -/
theorem take (h : Inv s) (error : Option String) : Inv (performTake error s).2 := by
  unfold performTake
  split
  · exact h
  next hs =>
  split
  · exact h
  next j hj =>
  have hmem : Sound s.world s.log (s.mem.modifyJob j fun x => { x with state := .running }) := by
    refine h.mem.modifyJob j _ (fun x => ⟨rfl, rfl, rfl⟩) (fun x hx _ => ?_) (fun x hx => ?_)
    · obtain ⟨_, hjob, hq⟩ := Shared.queuedJob_some hj
      cases hx.symm.trans hjob
      simp [Job.pending, hq]
    · simp at hx
  cases error with
  | none =>
    have hlog : Sound s.world (.taken j :: s.log) _ := hmem.log_cons (by simp)
    exact ⟨hlog, hlog, fun _ => rfl⟩
  | some =>
    refine ⟨hmem.log_cons (by simp), h.journal.log_cons (by simp), fun hs => ?_⟩
    simp at hs

/-- A region, saved or not. -/
theorem commit (h : Inv s) {ph : Phase} {w : Write} (hg : WriteGuard ph s w) (clock : Clock)
    (error : Option String) : Inv (Shared.commit { s with clock } w error).2 := by
  have hmem : Sound s.world s.log (w.apply clock s.mem) := h.sound_apply hg
  cases error with
  | none =>
    have hlog : Sound s.world (.committed w s.journal (w.apply clock s.mem) :: s.log) _ :=
      hmem.log_cons (by simp)
    exact ⟨hlog, hlog, fun _ => rfl⟩
  | some =>
    refine ⟨hmem.log_cons (by simp), h.journal.log_cons (by simp), fun hs => ?_⟩
    simp [Shared.commit] at hs

theorem call (h : Inv s) {c : Call} (hg : CallGuard s c) (clock : Clock) (out : Outcome) :
    Inv (Shared.call { s with clock } c out).2 := by
  -- What a call does to the workers and adds to the log suits each document that knows
  -- the run of an arm call.
  have hsound : ∀ d, Sound s.world s.log d →
      (∀ run, c = .captureControl run .arm → d.runs[run.id]? = some run) →
      Sound (c.effect out s.world) (.called c out.error :: s.log) d := by
    intro d hd hknown
    refine { hd with workers := fun {id x} hx => ?_, epochs := fun {run error} hx => ?_ }
    · rcases Call.effect_workers hx with hold | ⟨run, hc, hnew⟩
      · exact hd.workers hold
      · simp only [Run.captureWorkers, List.mem_toFinset, List.mem_map, Prod.mk.injEq] at hnew
        obtain ⟨capture, hcapture, rfl, rfl⟩ := hnew
        exact ⟨run, hknown run hc, capture, hcapture, rfl⟩
    · rcases List.mem_cons.1 hx with hnew | hold
      · cases hnew
        exact ⟨run, hknown run rfl, le_rfl⟩
      · exact hd.epochs hold
  refine ⟨hsound _ h.mem ?_, hsound _ h.journal ?_, h.jobs⟩
  · rintro run rfl; exact hg.1
  · rintro run rfl; exact hg.2.1

/-- A region that changes one run leaves the jobs alone. -/
theorem run_unsaved (h : Inv s) {ph : Phase} {id : RunId} {w : RunWrite}
    (hg : WriteGuard ph s (.run id w)) (clock : Clock) :
    Inv { s with clock, mem := (Write.run id w).apply clock s.mem } :=
  ⟨h.sound_apply hg, h.journal, h.jobs⟩

/-- Guarded operations keep the invariant. -/
theorem perform (h : Inv s) {ph : Phase} {o : Op} (hg : Guard ph s o) (out : Outcome) :
    Inv (perform o out s).2 := by
  have htick : Inv (s.tick out.elapsed) := ⟨h.mem, h.journal, h.jobs⟩
  cases o with
  | read => exact htick
  | cancelled => exact htick
  | clock => exact htick
  | take => exact htick.take out.error
  | call => exact h.call hg _ out
  | update w =>
    cases w with
    | run => exact h.run_unsaved hg.1 _
    | _ => simp [Guard, Write.unsaved] at hg
  | commit =>
    unfold Runtime.perform performCommit
    dsimp only
    split
    · next cut hcut =>
        obtain ⟨_, -, hcut⟩ := Option.bind_eq_some_iff.1 hcut
        obtain ⟨id, began, gaps, -, rfl⟩ := Write.aborted_some hcut
        have hg : WriteGuard ph s (.run id (.samples began gaps)) := fun _ _ => trivial
        exact h.run_unsaved hg _
    · exact h.commit hg.1 _ out.error

end Inv
end Graphlab.Runtime
