import Graphlab.Runtime.Jobs
import Graphlab.Runtime.Monitor

/-!
# Verifying `execute`

A resume runs `m5_monitor` twice.  `Riding` is the setting it runs in: the job is
executed, and as long as its run is not sent to reconciliation the barrier that was
built up so far stands.  With it, and with the fault jobs, `execute` is complete.

## Main results

* `executeResume_wp`, `m5Execute_wp` — the operations left.
* `execute_wp` — every job ends with the worker free, or falls.
-/

namespace Graphlab.Runtime

open Lib Lib.Discipline

variable {site : Site} {j : JobId} {job : Job} {r : Run} {F : World → List Event → Prop}
  {s t : Shared} {E : Failure → Shared → Prop}

/-! ## `m5_monitor` inside a resume -/

/-- The resume `j` is executed on the run `r'`; its memory may be ahead of the journal. -/
structure Afloat (j : JobId) (job : Job) (r' : Run) (s : Shared) : Prop where
  running : job.state = .running
  resumes : job.operation = .resume
  mem : ∃ c, s.mem.jobs[j]? = some { job with cancelRequested := c }
  journal : ∃ c, s.journal.jobs[j]? = some { job with cancelRequested := c }
  run : s.mem.runs[job.runId]? = some r'
  current : Current j s.log
  calm : Calm s.log
  coverage : ∀ id, SameCoverage s id

/-- What is left of `r` in `r'` while `m5_monitor` runs: the run is sent to
reconciliation, or it is as before and `L` still holds of the log. -/
structure Keeps (id : RunId) (r : Run) (L : List Event → Prop) (debt : Option RunId) (r' : Run)
    (log : List Event) : Prop where
  topology : r'.topology = r.topology
  coverage : r'.captureCoverage = r.captureCoverage
  state : r'.state = .reconciling ∨ r'.state = r.state ∧ (debt = some id ∨ L log)

/-- The setting of `m5_monitor` inside the resume `j`. -/
def Riding (j : JobId) (job : Job) (r : Run) (L : List Event → Prop) (synced : Bool)
    (debt : Option RunId) (s : Shared) : Prop :=
  ∃ r', Afloat j job r' s ∧ (synced = true → s.journal.runs = s.mem.runs) ∧
    Keeps job.runId r L debt r' s.log

namespace Afloat

variable {r' : Run}

theorem hasPending (h : Afloat j job r' s) : s.mem.hasPending = true := by
  obtain ⟨_, hc⟩ := h.mem
  exact (State.hasPending_iff _).2 ⟨j, _, hc, by simp [Job.pending, h.running]⟩

theorem serve (h : Afloat j job r' s) (hst : Serve s t) : Afloat j job r' t := by
  have hruns := hst.runs_eq h.hasPending
  obtain ⟨_, hc⟩ := h.mem
  obtain ⟨c', hc'⟩ := hst.job hc
  refine ⟨h.running, h.resumes, ⟨c', hc'⟩, ?_, hruns ▸ h.run, hst.log_eq ▸ h.current,
    hst.log_eq ▸ h.calm, fun id old hold => ?_⟩
  · rcases hst.journal_eq with hj | hj
    · exact hj ▸ ⟨c', hc'⟩
    · exact hj ▸ h.journal
  · rcases hst.journal_eq with hj | hj
    · exact ⟨old, hj ▸ hold, rfl⟩
    · rw [hruns]; exact h.coverage id (hj ▸ hold)

/-- What is left when the job is given up here. -/
theorem fallen (h : Afloat j job r' s) (hinv : Inv s) : Fallen j job s := by
  obtain ⟨_, hc⟩ := h.mem
  obtain ⟨_, hc'⟩ := h.journal
  refine ⟨⟨_, hc, rfl, fun _ => h.running⟩, ⟨_, hc', h.running, rfl⟩, ⟨r', h.run⟩, ?_,
    fun id _ => h.coverage id, fun id hid => ?_⟩
  · intro i x hx hp
    exact hinv.mem.one_pending hx hc hp (by simp [Job.pending, h.running])
  · simp [h.calm id] at hid

end Afloat

namespace Riding

variable {L : List Event → Prop} {b : Bool} {d : Option RunId}

theorem stable : (served site).Stable (Riding j job r L b d) := by
  refine stable_of_serve fun s t _ hst ⟨r', hat, hsync, hkeeps⟩ => ?_
  refine ⟨r', hat.serve hst, fun hb => ?_, hst.log_eq ▸ hkeeps⟩
  rcases hst.journal_eq with hj | hj
  · rw [hj]
  · rw [hj, hst.runs_eq hat.hasPending]; exact hsync hb

/-- A region of `m5_monitor` on the run of the job: reconciliation, or no change that
matters. -/
theorem mild_run {w : RunWrite} (hw : w.mild = true) (clock : Clock) (r : Run) :
    (w.apply clock r).topology = r.topology ∧
    (w.apply clock r).captureCoverage = r.captureCoverage ∧
    ((w.apply clock r).state = .reconciling ∨ (w.apply clock r).state = r.state ∧
      ∀ fid error, w ≠ .faultFailure fid error) := by
  refine ⟨RunWrite.apply_topology .., RunWrite.mild_coverage hw .., ?_⟩
  rw [RunWrite.apply_state]
  cases w <;> simp_all [RunWrite.mild]

end Riding

namespace Keeps

variable {id i : RunId} {L : List Event → Prop} {d d' : Option RunId} {r' : Run}
  {log log' : List Event}

/-- A region of `m5_monitor` on the run `i`, when what was known of the log still is. -/
theorem write (h : Keeps id r L d r' log) {w : RunWrite} (hw : w.mild = true) (clock : Clock)
    (hL : (if i = id then ∀ fid error, w ≠ .faultFailure fid error else True) →
      d = some id ∨ L log → d' = some id ∨ L log') :
    Keeps id r L d' (if i = id then w.apply clock r' else r') log' := by
  by_cases hi : i = id
  · simp only [hi, if_true] at hL ⊢
    obtain ⟨htopology, hcoverage, hstate⟩ := Riding.mild_run hw clock r'
    refine ⟨htopology.trans h.topology, hcoverage.trans h.coverage, ?_⟩
    rcases hstate with hstate | ⟨hstate, hne⟩
    · exact .inl hstate
    · rw [hstate]
      exact h.state.imp_right fun ⟨hs, hlog⟩ => ⟨hs, hL hne hlog⟩
  · simp only [hi, if_false, true_implies] at hL ⊢
    exact ⟨h.topology, h.coverage, h.state.imp_right fun ⟨hs, hlog⟩ => ⟨hs, hL hlog⟩⟩

end Keeps

/-- `m5_monitor` runs inside a resume. -/
theorem watching_riding {L : List Event → Prop}
    (hL : ∀ e log, Event.breaks job.runId e = false → L log → L (e :: log)) :
    Watching site (Riding j job r L) where
  stable _ _ := Riding.stable
  calm := fun ⟨_, h, _⟩ => h.calm
  coverage := fun ⟨_, h, _⟩ => h.coverage
  resumes := fun ⟨_, h, _⟩ hinv i x hx hrun => by
    obtain ⟨c, hc⟩ := h.mem
    obtain rfl := hinv.mem.one_pending hx hc (by simp [Job.pending, hrun])
      (by simp [Job.pending, h.running])
    cases hc.symm.trans hx
    exact h.resumes
  owes := fun d ⟨r', h, hsync, hk⟩ => ⟨r', h, hsync, hk.topology, hk.coverage,
    hk.state.imp_right fun ⟨hs, hlog⟩ => ⟨hs, .inr (hlog.resolve_left (by simp))⟩⟩
  tick := fun _ ⟨r', h, hsync, hk⟩ => ⟨r', { h with }, hsync, hk⟩
  call := fun {b d s c} out ⟨r', h, hsync, hk⟩ hc hfail => by
    refine ⟨r', { h with current := h.current.cons (by simp) (by simp), calm := fun id => ?_ },
      hsync, hk.topology, hk.coverage, ?_⟩
    · exact (arming_called (Call.free_ne_arm hc) id out.error _).trans (h.calm id)
    · -- A failure that breaks the barrier is one that is going to be recorded.
      rcases hk.state with hs | ⟨hs, hlog⟩
      · exact .inl hs
      cases hbreaks : Event.breaks job.runId (.called c out.error) with
      | false => exact .inr ⟨hs, hlog.imp_right (hL _ _ hbreaks)⟩
      | true =>
        simp only [Event.breaks, Bool.and_eq_true, Option.isSome_iff_ne_none] at hbreaks
        rcases hfail hbreaks.1 _ hbreaks.2 with hd | ⟨r'', hr'', hrec⟩
        · exact .inr ⟨hs, .inl hd⟩
        · cases h.run.symm.trans hr''
          exact .inl hrec
  saved := fun {b d s id w} n ⟨r', h, hsync, hk⟩ _ hw hd => by
    refine ⟨_, ⟨h.running, h.resumes, h.mem, h.mem, Write.apply_run_some h.run w _,
      h.current.cons (by simp) (by simp), fun _ => rfl, fun _ old hold => ⟨old, hold, rfl⟩⟩,
      fun _ => rfl, hk.write hw _ fun hne hlog => .inr (hL _ _ rfl ?_)⟩
    refine hlog.resolve_left fun hdebt => ?_
    rcases hd with hd | ⟨hd, fid, error, rfl⟩
    · simp [hd] at hdebt
    · cases hd.symm.trans hdebt
      simp at hne
  failed := fun {b d s id w} n code ⟨r', h, hsync, hk⟩ _ hw hd => by
    refine ⟨_, ⟨h.running, h.resumes, h.mem, h.journal, Write.apply_run_some h.run w _,
      h.current.cons (by simp) (by simp), h.calm, fun id => (h.coverage id).mild hw rfl rfl⟩,
      by simp, hk.write hw _ fun hne hlog => ?_⟩
    by_cases hi : id = job.runId
    · exact .inl (by rw [hi])
    · refine .inr (hL _ _ (by simp [Event.breaks, Write.concerns, hi]) (hlog.resolve_left ?_))
      rcases hd with hd | hd <;> simp [hd, hi]
  updated := fun {b d s id w} n ⟨r', h, hsync, hk⟩ _ hw => by
    refine ⟨_, ⟨h.running, h.resumes, h.mem, h.journal, Write.apply_run_some h.run w _, h.current,
      h.calm, fun id => (h.coverage id).mild hw rfl rfl⟩, by simp, hk.write hw _ fun _ h => h⟩

/-- `m5_monitor` inside a resume: the run is sent to reconciliation, or stays as it was
with everything known of the log. -/
theorem ride_wp (hE : Catches site j job E) (hop : job.operation = .resume)
    {L : List Event → Prop}
    (hL : ∀ e log, Event.breaks job.runId e = false → L log → L (e :: log))
    (h : At j job r (fun _ log => L log) s) :
    (served site).wp m5Monitor
      (fun _ t => ∃ r', At j job r' (fun _ log => r'.state ≠ .reconciling → L log) t ∧
        r'.topology = r.topology ∧ r'.captureCoverage = r.captureCoverage ∧
        (r'.state = .reconciling ∨ r'.state = r.state)) E s := by
  have hride : Riding j job r L true none s :=
    ⟨r, ⟨h.running, hop, h.mem, h.journal, h.run, h.current, h.calm, h.coverage⟩,
      fun _ => h.sync, rfl, rfl, .inr ⟨rfl, .inr h.outside⟩⟩
  refine wp_mono ?_ ?_ (m5Monitor_wp (watching_riding hL) hride)
  · rintro _ t - ⟨r', hat, hsync, hk⟩
    refine ⟨r', ⟨⟨hat.running, hat.mem, hat.journal, hsync rfl, hat.run, hat.current,
      fun id hid => ?_, fun hne => ?_⟩, hat.calm⟩, hk.topology, hk.coverage,
      hk.state.imp_right And.left⟩
    · simp [hat.calm id] at hid
    · exact ((hk.state.resolve_left hne).2).resolve_left (by simp)
  · rintro e t hinv ⟨_, _, r', hat, -⟩
    exact hE.of_fallen e t (hat.fallen hinv) hinv

/-- `execute` for a resume. -/
theorem executeResume_wp (hE : Catches site j job E) (hop : job.operation = .resume)
    (h : At j job r F s) :
    (served site).wp (executeResume j r.recording) (fun _ => Loop) E s := by
  unfold executeResume
  simp only [Prog.bind_eq]
  refine wp_bind (wp_mono ?_ (fun _ _ _ h => h) (ride_wp hE hop (L := fun _ => True)
    (fun _ _ _ h => h) (h.mono fun _ _ _ => trivial)))
  rintro _ t hinv ⟨r₁, ht, htopology, -, -⟩
  refine ht.snapshot fun t c ht hinv => ?_
  refine wp_when (fun _ => ?_) fun hstate => ?_
  · exact wp_raise (hE.stable _) (hE.of_fallen _ t (ht.fallen hinv) hinv)
  have hstopped : r₁.state = .stopped := by simpa using hstate
  have hrec : r.recording = r₁.recording := by simp only [Run.recording, htopology]
  rw [hrec]
  refine wp_bind (wp_mono ?_ (fun _ _ _ h => h) (arm_wp hE (.inr hstopped) ht))
  rintro run t hinv ⟨ht, harmed⟩
  have hid := ht.run_id hinv
  have hrec' : r₁.recording = run.recording := by simp only [Run.recording, harmed.topology]
  rw [hrec']
  -- The barrier: activation, and a look at the workers.
  refine ht.free' hE (by rfl) fun t ht hinv => ?_
  refine wp_when_join (P := At j job run fun _ log => run.recording = true →
    Barrier j job.runId log) hinv (fun hrec => ?_) (fun hrec => ht.mono ?_) fun t ht hinv => ?_
  · rw [← Prog.bind_ret (Act.call' _)]
    refine ht.free' hE (by rfl) fun t ht hinv => wp_ret At.stable (ht.mono ?_)
    rintro w log ⟨w₁, log₁, out, ⟨w₀, log₀, out₀, harm, -, -, rfl⟩, -, -, rfl⟩ -
    exact .here ⟨run, rfl, hid, .here ⟨run, rfl, hid, harm hrec⟩⟩
  · simp [hrec]
  refine wp_bind (wp_mono ?_ (fun _ _ _ h => h) (ride_wp hE hop
    (fun e log he hbarrier hrec => (hbarrier hrec).cons he) ht))
  rintro _ t hinv ⟨r₂, ht, htopology₂, hcoverage₂, hstate₂⟩
  refine ht.snapshot fun t c ht hinv => ?_
  refine wp_when (fun _ => ?_) fun hne => ?_
  · exact wp_raise (hE.stable _) (hE.of_fallen _ t (ht.fallen hinv) hinv)
  have hid₂ := ht.run_id hinv
  have hrec₂ : r₂.recording = run.recording := by simp only [Run.recording, htopology₂]
  have hready : r₂.state = .armed ∨ r₂.state = .stopped := by
    rw [hstate₂.resolve_left (by simpa using hne)]
    exact harmed.state.imp_right fun h => h.2.trans hstopped
  refine ht.call' hE (by simp) (fun t ht _ => ?_) fun t ht hinv => ?_
  · obtain ⟨c, ho⟩ := ht.owns
    refine ⟨j, _, ho, hid₂.symm, .inr hready, fun hrec => ?_⟩
    rw [hid₂]
    exact ht.outside (by simpa using hne) (hrec₂ ▸ hrec)
  rw [hid₂]
  refine ht.commit' hE (.state .ready) (fun _ => rfl) (fun t ht _ => ?_) fun t clock ht hinv => ?_
  · obtain ⟨_, ho⟩ := ht.owns
    exact ⟨j, _, ho, rfl, .inr ⟨hop, hready⟩⟩
  · refine complete_wp hE (.ready (by simp [hop]) rfl fun hrec => ?_) ht
    exact hcoverage₂.trans (harmed.coverage (hrec₂ ▸ hrec))

/-! ## Fault jobs -/

theorem confined_faultBegin (id : RunId) : (Write.faultBegin j).Confined id := by
  intro clock d i r r' hne he
  cases he with
  | same => rfl
  | faultBegin _ x => obtain ⟨_, _, h⟩ := Write.beginRun_eq clock r x; rw [h]

theorem confined_faultDone (id : RunId) (cancel : Bool) (observed : String) :
    (Write.faultDone j cancel observed).Confined id := by
  intro clock d i r r' hne he
  cases he <;> rfl

/-- `m5_execute` once the intent is recorded: the call, a second look at the
cancellation, and the record of what happened. -/
theorem faultCall_wp (hE : Catches site j job E) {f : Fault}
    (hf : r.faults[job.faultId]? = some f)
    (hstate : job.operation = .faultApply ∧ f.state = .applying ∨
      job.operation = .faultRemove ∧ f.state = .removing) (h : At j job r F s) (hinv : Inv s) :
    (served site).wp (do
        let reply ← Act.call
          (.fault r f (if job.operation == .faultApply then .apply else .remove))
        let s ← Act.read
        let cancel := job.operation == .faultApply &&
          (s.jobs[j]?.map Job.cancelRequested).getD false
        Act.when cancel (Act.call' (.fault r f .remove))
        Act.commit' (.faultDone j cancel reply.observed))
      (fun _ => Loop) E s := by
  have hid := h.run_id hinv
  have hfid : f.id = job.faultId := hinv.mem.fault_id h.run hf
  refine h.call (by simp) (fun t ht _ => ?_) hE.stable (fun t reply ht hinv => ?_)
    fun t _ ht hinv => hE.of_fallen _ t (ht.fallen hinv) hinv
  · rcases hstate with ⟨hop, hstate⟩ | ⟨hop, hstate⟩
    · simp only [hop, beq_self_eq_true, if_true, CallGuard, hid, hfid]
      exact ⟨⟨r, f, ht.run, hf, hstate⟩, ⟨r, f, ht.journal_run, hf, hstate⟩⟩
    · have hne : (Operation.faultRemove == .faultApply) = false := rfl
      simp [hop, hne, CallGuard]
  refine ht.read fun t ht hinv => ?_
  generalize hcancel : (job.operation == .faultApply &&
    (t.mem.jobs[j]?.map Job.cancelRequested).getD false) = cancel
  have hgone : ∀ {w : World}, job.operation = .faultRemove →
      Called (.fault r f (if job.operation == .faultApply then .apply else .remove)) none F w
        t.log → (job.runId, job.faultId) ∉ w.installed := by
    rintro w hop ⟨w₀, log₀, out, -, herror, rfl, -⟩
    have hne : (Operation.faultRemove == .faultApply) = false := rfl
    simp [hop, hne, Call.effect, herror, hid, hfid]
  refine wp_when_join (P := At j job r fun w _ => cancel = true ∨ job.operation = .faultRemove →
    (job.runId, job.faultId) ∉ w.installed) hinv (fun hc => ?_) (fun hc => ?_) fun t ht hinv => ?_
  · rw [← Prog.bind_ret (Act.call' _)]
    refine ht.free' hE (by rfl) fun t ht hinv => wp_ret At.stable (ht.mono ?_)
    rintro w log ⟨w₀, log₀, out, -, herror, rfl, -⟩ -
    simp [Call.effect, herror, hid, hfid]
  · refine { ht with outside := fun h => ?_ }
    exact hgone (h.resolve_left (by simp [hc])) ht.outside
  refine ht.ends hE (fun _ => rfl) (confined_faultDone _ _ _) (fun _ => by simp [Write.ends])
    fun t ht _ => ?_
  obtain ⟨_, ho⟩ := ht.owns
  refine ⟨_, r, f, ho, hf, ?_⟩
  rcases hstate with ⟨hop, hstate⟩ | ⟨hop, hstate⟩
  · exact .inl ⟨hop, hstate, fun hc => ht.outside (.inl hc)⟩
  · refine .inr ⟨hop, ?_, hstate, ht.outside (.inr hop)⟩
    have hne : (Operation.faultRemove == .faultApply) = false := rfl
    simpa [hop, hne] using hcancel.symm

/-- The first region of `m5_execute`, on a run that has the fault. -/
theorem Write.apply_faultBegin {d : State} {clock : Clock} {x : Job} {f : Fault}
    (hx : d.jobs[j]? = some x) (hr : d.runs[x.runId]? = some r)
    (hf : r.faults[x.faultId]? = some f) :
    (Write.faultBegin j).apply clock d =
      if x.operation == .faultApply && x.cancelRequested then
        (d.modifyJob j fun x => { x with state := .cancelled }).modifyRun x.runId fun r =>
          (r.setFault x.faultId .cancelled).event clock "fault-cancelled"
            (.fields [("faultId", x.faultId)])
      else if x.operation == .faultRemove && !f.state.live then
        d.modifyJob j fun x => { x with state := .succeeded }
      else d.modifyRun x.runId fun r =>
        r.setFault x.faultId (if x.operation == .faultApply then .applying else .removing) := by
  simp only [Write.apply, hx, Write.beginFault, hr, Option.bind_some, hf]

/-- The intent of a fault job is recorded. -/
theorem At.begun (h : At j job r F s) {n : ℕ} {r' : Run}
    (hjob : ((Write.faultBegin j).apply (s.tick n).clock s.mem).jobs[j]? = s.mem.jobs[j]?)
    (hrun : ((Write.faultBegin j).apply (s.tick n).clock s.mem).runs[job.runId]? = some r') :
    At j job r' Anything ((s.tick n).commit (.faultBegin j) none).2 := by
  obtain ⟨c, hc⟩ := h.mem
  exact ⟨⟨h.running, ⟨c, hjob.trans hc⟩, ⟨c, hjob.trans hc⟩, rfl, hrun,
    h.current.cons (by simp) (by simp), fun id hid => by simp [Shared.commit, arming] at hid,
    trivial⟩, fun _ => rfl⟩

/-- `m5_execute`. -/
theorem m5Execute_wp (hE : Catches site j job E)
    (hop : job.operation = .faultApply ∧ (∃ f, r.faults[job.faultId]? = some f ∧
        f.state = .queued) ∨ job.operation = .faultRemove)
    (h : At j job r F s) : (served site).wp (m5Execute j) (fun _ => Loop) E s := by
  refine h.region hE (fun _ => rfl) (confined_faultBegin _) (fun t ht _ => ?_)
    fun t n ht hinv hu => ?_
  · obtain ⟨c, ho⟩ := ht.owns
    exact ⟨_, r, ho, hop⟩
  obtain ⟨c, hc⟩ := ht.mem
  -- A job that the region has ended leaves the worker free.
  have hended : ∀ x, ((Write.faultBegin j).apply (t.tick n).clock t.mem).jobs[j]? = some x →
      x.state ≠ .running → Loop ((t.tick n).commit (.faultBegin j) none).2 := by
    intro x hx hne
    refine ht.loop_of_commit hinv fun y hy => ?_
    cases hx.symm.trans hy
    exact hne
  cases hf : r.faults[job.faultId]? with
  | none =>
    have hmem : (Write.faultBegin j).apply (t.tick n).clock t.mem = t.mem := by
      simp only [Write.apply, hc, Write.beginFault, ht.run, Option.bind_some, hf]
    have hat := ht.begun (n := n) (by rw [hmem]) (by rw [hmem]; exact ht.run)
    simp only [hmem, hc, ht.run, ht.running, bne_self_eq_false, Bool.false_eq_true, if_false, hf]
    exact wp_raise (hE.stable _) (hE.of_fallen _ _ (hat.fallen hu) hu)
  | some f =>
    have hmem := @Write.apply_faultBegin _ _ _ (t.tick n).clock _ _ hc ht.run hf
    by_cases hcancel : (job.operation == .faultApply && c) = true
    · have hx : ((Write.faultBegin j).apply (t.tick n).clock t.mem).jobs[j]? =
          some { job with cancelRequested := c, state := .cancelled } := by
        rw [hmem, if_pos hcancel, State.modifyRun_jobs, State.modifyJob_job, hc]; simp
      simp only [hx]
      exact wp_ret Loop.stable (hended _ hx (by simp))
    by_cases hgone : (job.operation == .faultRemove && !f.state.live) = true
    · have hx : ((Write.faultBegin j).apply (t.tick n).clock t.mem).jobs[j]? =
          some { job with cancelRequested := c, state := .succeeded } := by
        rw [hmem, if_neg hcancel, if_pos hgone, State.modifyJob_job, hc]; simp
      simp only [hx]
      exact wp_ret Loop.stable (hended _ hx (by simp))
    rw [if_neg hcancel, if_neg hgone] at hmem
    have hx : ((Write.faultBegin j).apply (t.tick n).clock t.mem).jobs[j]? =
        some { job with cancelRequested := c } := by rw [hmem]; exact hc
    have hr := State.modifyRun_run t.mem job.runId job.runId fun r =>
      r.setFault job.faultId (if job.operation == .faultApply then .applying else .removing)
    rw [ht.run, Option.map_some, if_pos rfl, ← hmem] at hr
    have hf' := Write.setFault_fault r job.faultId job.faultId
      (if job.operation == .faultApply then .applying else .removing)
    rw [hf, Option.map_some, if_pos rfl] at hf'
    simp only [hx, hr, ht.running, bne_self_eq_false, Bool.false_eq_true, if_false, hf']
    refine faultCall_wp hE hf' ?_ (ht.begun (hx.trans hc.symm) hr) hu
    rcases hop with ⟨hop, -⟩ | hop
    · exact .inl ⟨hop, by simp [hop]⟩
    · exact .inr ⟨hop, by simp [hop]⟩

/-! ## Jobs -/

/-- `execute`, from where the job is taken: it ends with the worker free, or falls. -/
theorem execute_wp (ha : Awaits job r) (h : At j job r F s) :
    (served site).wp (execute j) (fun _ => Loop) (fun _ => Fallen j job) s := by
  have hE : Catches site j job fun _ => Fallen j job := catches_fallen
  refine h.snapshot fun t c ht hinv => ?_
  have hid := ht.run_id hinv
  cases hop : job.operation with
  | start =>
    simp only [Awaits, hop] at ha
    exact executeStart_wp hE hop ha.1 hid ht hinv
  | stop => exact executeStop_wp hE hop hid ht
  | resume => exact executeResume_wp hE hop ht
  | destroy => exact executeDestroy_wp hE (.inl hop) hid ht
  | recover => exact executeDestroy_wp hE (.inr hop) hid ht
  | faultApply =>
    refine m5Execute_wp hE (.inl ⟨hop, ?_⟩) ht
    simpa only [Awaits, hop] using ha
  | faultRemove => exact m5Execute_wp hE (.inr hop) ht

end Graphlab.Runtime
