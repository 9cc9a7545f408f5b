import Graphlab.Runtime.Execute

/-!
# Verifying the worker

Between jobs the worker has nothing to keep but `Loop`: no job is running, no run is
being armed, and memory and journal agree on coverages.  `work` comes back to it
however its iteration goes, unless an exception ends the process.

## Main results

* `handleFailure_wp` — the failure handler, from wherever a job fell.
* `monitor_wp`, `sourceWork_wp` — what the worker does when no job is queued.
* `work_wp` — one iteration.
-/

namespace Graphlab.Runtime

open Std (TreeMap)
open Lib Lib.Discipline

variable {site : Site} {j : JobId} {job : Job} {s t : Shared} {α : Type}
  {Q : α → Shared → Prop} {E : Failure → Shared → Prop}

/-! ## The failure handler -/

/-- A call without a guard, whose failure is swallowed. -/
theorem Fallen.attempt (h : Fallen j job s) {c : Call} (hc : c.free = true) {k : Bool → Act α}
    (hok : ∀ t b, Fallen j job t → Inv t → (served site).wp (k b) Q E t) :
    (served site).wp ((Act.succeeds (Act.call' c)).bind k) Q E s := by
  have hcalled : ∀ (t : Shared) (out : Outcome), Fallen j job t →
      Fallen j job (perform (.call c) out t).2 := by
    refine fun t out ht => { ht with window := fun id hid => ht.window id ?_ }
    exact (arming_called (Call.free_ne_arm hc) id out.error t.log).symm.trans hid
  refine wp_bind (wp_handle (wp_bind (wp_bind (wp_perform Fallen.stable h
    (fun t _ _ => c.free_guard hc t) ?_ ?_))))
  · rintro t b u reply ht - ⟨out, hout⟩ hu -
    cases hout
    exact wp_ret stable_wp (wp_ret stable_wp (wp_ret stable_wp (hok _ _ (hcalled t out ht) hu)))
  · rintro t b u e ht - ⟨out, hout⟩ hu -
    cases hout
    exact wp_raise stable_wp (wp_ret stable_wp (hok _ _ (hcalled t out ht) hu))

/-- A committed failure leaves the worker free. -/
theorem Fallen.loop (h : Fallen j job s) (error : String) (n : ℕ) :
    Loop ((s.tick n).commit (.failed j error) none).2 where
  unowned i x hx hrun := by
    obtain ⟨_, hy, hye⟩ := Write.job_of_apply hx
    obtain ⟨rfl, hends⟩ := hye.eq_of_pending (by simp [Job.pending, hrun])
    obtain rfl := h.alone i x hy (by simp [Job.pending, hrun])
    simp [Write.ends] at hends
  calm _ := rfl
  coverage _ old hold := ⟨old, hold, rfl⟩

/-- The failure handler of `work`. -/
theorem handleFailure_wp (e : Failure) (h : Fallen j job s) :
    (served site).wp (handleFailure j e) (fun _ => Loop) (fun _ _ => True) s := by
  refine wp_read Fallen.stable h fun t n ht _ _ => ?_
  obtain ⟨x, hx, hrun, -⟩ := ht.mem
  obtain ⟨r, hr⟩ := ht.run
  have hfound : (t.mem.jobs[j]?.bind fun j => t.mem.runs[j.runId]?) = some r := by
    rw [hx, Option.bind_some, hrun, hr]
  simp only [hfound]
  have ht' : Fallen j job (t.tick n) := { ht with }
  refine ht'.attempt (by rfl) fun t b ht _ => ?_
  refine wp_commit (fun _ => rfl) Fallen.stable ht (fun t ht _ => ?_) (fun _ => .const _)
    (fun _ n ht _ _ => wp_ret Loop.stable (ht.loop e.code n)) fun _ _ _ _ _ _ => trivial
  obtain ⟨x, hx, hrun, -⟩ := ht.mem
  refine ⟨⟨x, hx, ?_, ht.alone, ?_, ?_⟩, fun _ _ => trivial, .inr ⟨j, e.code, rfl⟩⟩
  · obtain ⟨old, hold, hstate, holdrun⟩ := ht.journal
    exact ⟨old, hold, hstate, holdrun.trans hrun.symm⟩
  · rw [hrun]; exact ht.coverage
  · rw [hrun]; exact ht.window

/-! ## Monitoring -/

namespace Loop

/-- A committed region starts no job. -/
theorem committed (h : Loop s) (w : Write) (n : ℕ) : Loop ((s.tick n).commit w none).2 where
  unowned i x hx hrun := by
    obtain ⟨_, hy, hye⟩ := Write.job_of_apply hx
    obtain ⟨rfl, -⟩ := hye.eq_of_pending (by simp [Job.pending, hrun])
    exact h.unowned hy hrun
  calm _ := rfl
  coverage _ old hold := ⟨old, hold, rfl⟩

/-- The rule for a region that ends an action of the worker: if its `save` throws, so
does the action. -/
theorem commit' {A : Shared → Prop} (hA : (served site).Stable A) (h : Loop s) (hs : A s)
    {w : Write} (hw : ∀ n, w.aborted n = none)
    (hg : ∀ t, Loop t → A t → Inv t → WriteGuard .body t w) :
    (served site).wp (Act.commit' w) (fun _ => Loop) (fun _ _ => True) s := by
  refine wp_commit hw (Loop.stable.and hA) ⟨h, hs⟩ (fun t ht hinv => ?_) (fun _ => .const _)
    (fun _ n ht _ _ => wp_ret Loop.stable (ht.1.committed w n)) fun _ _ _ _ _ _ => trivial
  refine ⟨hg t ht.1 ht.2 hinv, fun id hid => ?_, .inl ht.1.coverage⟩
  simp [ht.1.calm id] at hid

end Loop

/-- Between jobs, with the run `id` ready. -/
def Idle (id : RunId) (s : Shared) : Prop :=
  Loop s ∧ ∃ r, s.mem.runs[id]? = some r ∧ r.state = .ready

namespace Idle

variable {id : RunId}

theorem stable : (served site).Stable (Idle id) := by
  refine stable_of_serve fun s t _ hst ⟨h, r, hr, hstate⟩ => ⟨h.serve hst, ?_⟩
  obtain ⟨_, hr', _, _, _, _, _, rfl, -⟩ := hst.run hr
  exact ⟨_, hr', hstate⟩

theorem called (h : Idle id s) {c : Call} (hc : ∀ run, c ≠ .captureControl run .arm)
    (out : Outcome) : Idle id (perform (.call c) out s).2 := ⟨h.1.called hc out, h.2⟩

/-- The region of a healthy run, saved or not. -/
theorem healthy (h : Idle id s) (status : List Observation) (n : ℕ) (error : Option String) :
    Idle id ((s.tick n).commit (.run id (.healthy status)) error).2 := by
  obtain ⟨h, r, hr, hstate⟩ := h
  have hr' : ((Write.run id (.healthy status)).apply (s.tick n).clock s.mem).runs[id]? =
      some (RunWrite.apply (s.tick n).clock r (.healthy status)) := by
    rw [Write.apply_run_some hr, if_pos rfl]
  cases error with
  | none => exact ⟨h.committed _ n, _, hr', hstate⟩
  | some =>
    refine ⟨⟨h.unowned, h.calm, fun i old hold => ?_⟩, _, hr', hstate⟩
    obtain ⟨_, hr₁, hcov⟩ := h.coverage i hold
    refine ⟨_, Write.apply_run_some hr₁ (.healthy status) (s.tick n).clock, ?_⟩
    split <;> exact hcov

end Idle

/-- A call while a ready run is watched. -/
theorem Idle.call {id : RunId} (h : Idle id s) {c : Call}
    (hc : ∀ run, c ≠ .captureControl run .arm) (hg : ∀ t, CallGuard t c) {k : Reply → Act α}
    (hE : ∀ e, (served site).Stable (E e))
    (hok : ∀ t reply, Idle id t → Inv t → (served site).wp (k reply) Q E t)
    (herr : ∀ t e, Idle id t → Inv t → E e t) :
    (served site).wp ((Act.call c).bind k) Q E s :=
  wp_call Idle.stable h (fun t _ _ => hg t) hE (fun _ out ht _ _ => hok _ _ (ht.called hc out))
    fun _ out _ ht _ _ => herr _ _ (ht.called hc out)

/-- `monitor` on the run it watches: healthy, or held and sent to reconciliation. -/
theorem watch_wp {run : Run} (hready : run.state = .ready) (h : Idle run.id s) :
    (served site).wp (watch run) (fun _ => Loop) (fun _ _ => True) s := by
  have hidle : ∀ _ : Failure, (served site).Stable (Idle run.id) := fun _ => Idle.stable
  -- Whatever throws, the run is still ready and no job has started.
  refine wp_handle (wp_mono (E := fun _ => Idle run.id) (fun _ _ _ h => h) ?_ ?_)
  · rintro e t - ht
    refine wp_bind (wp_mono (Q := fun _ => Idle run.id) ?_ (fun _ _ _ h => h) ?_)
    · rintro held t - ht
      refine Loop.commit' Idle.stable ht.1 ht (fun _ => rfl) fun t ht hidle _ r hr => ?_
      obtain ⟨-, _, hr', hstate⟩ := hidle
      cases hr.symm.trans hr'
      exact ⟨ht.unowned, hstate⟩
    · refine wp_handle (wp_bind (ht.call (c := .gate run .quiesce) (by simp) (fun _ => trivial)
        (fun _ => stable_wp) (fun u _ hu _ => ?_) fun u e hu _ => wp_ret Idle.stable hu))
      exact wp_ret stable_wp (wp_ret Idle.stable hu)
  · refine wp_bind (wp_mono (Q := fun _ => Idle run.id) ?_ (fun _ _ _ h => h) ?_)
    · rintro status t - ht
      refine wp_bind (ht.call (c := .gate run .renew) (by simp) (fun _ => hready) hidle
        (fun t _ ht _ => wp_ret stable_wp ?_) fun _ _ ht _ => ht)
      refine wp_commit (fun _ => rfl) Idle.stable ht (fun t ht _ => ?_) hidle
        (fun _ n ht _ _ => wp_ret Loop.stable (ht.healthy status n none).1)
        fun _ n code ht _ _ => ht.healthy status n (some code)
      refine ⟨fun _ _ => trivial, fun id hid => ?_, .inl ht.1.coverage⟩
      simp [ht.1.calm id] at hid
    · unfold captureStatus
      split
      · exact h.call (c := .captureControl run .status) (by simp) (fun _ => trivial) hidle
          (fun _ _ ht _ => wp_ret Idle.stable ht) fun _ _ ht _ => ht
      · exact wp_ret Idle.stable h

/-- `monitor`. -/
theorem monitor_wp (h : Loop s) :
    (served site).wp monitor (fun _ => Loop) (fun _ _ => True) s := by
  refine wp_bind (wp_mono (Q := fun _ => Loop) ?_ (fun _ _ _ h => h) ?_)
  · rintro _ t - ht
    refine wp_read Loop.stable ht fun t n ht hinv _ => ?_
    split
    · exact wp_ret Loop.stable (ht.tick n)
    · next id run hfind =>
        have hready : run.state = .ready := by
          have := List.find?_some hfind
          simp only [watched, Bool.and_eq_true, beq_iff_eq] at this
          exact this.1
        have hrun : t.mem.runs[id]? = some run :=
          TreeMap.mem_toList_iff_getElem?_eq_some.1 (List.mem_of_find?_eq_some hfind)
        have hid : run.id = id := hinv.mem.run_id hrun
        exact watch_wp hready ⟨ht.tick n, run, hid ▸ hrun, hready⟩
  · refine wp_handle (wp_mono (fun _ _ _ h => h) ?_ (m5Monitor_wp watching_loop h))
    rintro e t - ⟨_, _, ht⟩
    exact Loop.commit' (.const True) ht trivial (fun _ => rfl) fun _ _ _ _ => trivial

/-! ## Source commands -/

/-- The calls of `source_work` need no guard. -/
theorem sendCommand_uses (d : State) (c : SourceCommand) : (sendCommand d c).Uses Op.harmless := by
  have hcall : ∀ run r command,
      (Act.call (.sourceControl run r command)).Uses Op.harmless :=
    fun run r command => .perform ⟨_, rfl, rfl⟩
  unfold sendCommand
  split
  · trivial
  refine .bind (uses_when trivial) fun _ => ?_
  split
  · trivial
  refine .bind (uses_when trivial) fun _ => .bind (hcall _ _ _) fun status => ?_
  split
  · trivial
  · exact .bind (hcall _ _ _) fun reply => uses_when trivial

theorem commandOutcome_uses (d : State) (c : SourceCommand) (now : Clock) :
    (commandOutcome d c now).Uses Op.harmless := by
  unfold commandOutcome
  split
  · trivial
  · exact .handle (.bind (sendCommand_uses d c) fun _ => trivial) fun _ => trivial

/-- `source_work`. -/
theorem sourceWork_wp (h : Loop s) :
    (served site).wp sourceWork (fun _ => Loop) (fun _ _ => True) s := by
  refine wp_read Loop.stable h fun t n ht _ _ => ?_
  split
  · exact wp_ret Loop.stable (ht.tick n)
  · next key c hfind =>
      refine wp_clock Loop.stable (ht.tick n) fun t n ht _ => ?_
      refine wp_bind (wp_mono (Q := fun _ => Loop) ?_ (fun _ _ _ h => h) ?_)
      · rintro ⟨outcome, error⟩ t - ht
        exact Loop.commit' (.const True) ht trivial (fun _ => rfl) fun _ _ _ _ => trivial
      · refine wp_mono (fun _ _ _ h => h) (fun _ _ _ _ => trivial)
          (wp_of_uses (commandOutcome_uses _ c _) Loop.stable (ht.tick n) ?_ ?_)
        · rintro t _ ⟨c, rfl, hc⟩ - -
          exact c.free_guard hc t
        · rintro t _ b u ⟨c, rfl, hc⟩ ht - ⟨out, hout⟩ -
          cases hout
          exact ht.called (Call.free_ne_arm hc) out

/-! ## One iteration -/

/-- What `work` finds when it takes a job. -/
theorem At.taken (hinv : Inv s) {j : JobId} (hj : s.queuedJob = some j) :
    ∃ job r, At j job r Anything
      { s with
        mem := s.mem.modifyJob j fun j => { j with state := .running }
        journal := s.mem.modifyJob j fun j => { j with state := .running }
        log := .taken j :: s.log } ∧ Awaits job r := by
  obtain ⟨job, hjob, hq⟩ := Shared.queuedJob_some hj
  obtain ⟨r, hr, ha⟩ := hinv.mem.waiting hjob hq
  have hmem : (s.mem.modifyJob j fun j => { j with state := .running }).jobs[j]? =
      some { job with state := .running } := by rw [State.modifyJob_job, hjob]; simp
  exact ⟨{ job with state := .running }, r, ⟨⟨rfl, ⟨_, hmem⟩, ⟨_, hmem⟩, rfl, hr,
    ⟨[], s.log, rfl, by simp⟩, fun id hid => by simp [arming] at hid, trivial⟩, fun _ => rfl⟩, ha⟩

/-- **One iteration of the worker.** -/
theorem work_wp (h : Loop s) :
    (served site).wp work (fun b t => b = true → Loop t) (fun _ _ => True) s := by
  have hpost : ∀ b : Bool, (served site).Stable fun t => b = true → Loop t :=
    fun b => .imp Loop.stable
  refine wp_bind (wp_perform Loop.stable h (fun _ ht _ => ⟨rfl, ht⟩) ?_ ?_)
  · rintro t b u taken ht hinv ⟨out, hout⟩ hu hb
    have hout : performTake out.error (t.tick out.elapsed) = (b, u) := hout
    have hinv' : Inv (t.tick out.elapsed) := ⟨hinv.mem, hinv.journal, hinv.jobs⟩
    refine wp_ret stable_wp ?_
    unfold performTake at hout
    split at hout
    · -- The agent stops.
      cases hout
      cases hb
      exact wp_ret (hpost false) (by simp)
    split at hout
    · -- No job is queued.
      cases hout
      cases hb
      refine wp_bind (wp_mono (Q := fun _ => Loop) ?_ (fun _ _ _ h => h) (monitor_wp (ht.tick _)))
      rintro _ t - ht
      refine wp_bind (wp_mono (Q := fun _ => Loop) ?_ (fun _ _ _ h => h) (sourceWork_wp ht))
      exact fun _ t _ ht => wp_ret (hpost true) fun _ => ht
    next j hj =>
    cases herror : out.error with
    | some => rw [herror] at hout; cases hout; cases hb
    | none =>
      rw [herror] at hout
      cases hout
      cases hb
      obtain ⟨_, _, hat, ha⟩ := At.taken hinv' hj
      refine wp_bind (wp_mono (Q := fun _ => Loop) ?_ (fun _ _ _ h => h) ?_)
      · exact fun _ t _ ht => wp_ret (hpost true) fun _ => ht
      · refine wp_handle (wp_mono (fun _ _ _ h => h) ?_ (execute_wp ha hat))
        exact fun e t _ ht => handleFailure_wp e ht
  · exact fun t b u e _ _ _ _ _ => wp_raise (.const _) trivial

end Graphlab.Runtime
