import Graphlab.Runtime.Outline

/-!
# Live workers behind a closed coverage

The constructor adopts the capture workers of a run unless the coverage of the run says
that its captures are closed.  `arm` starts the workers of a new epoch before the commit
that changes the coverage, so in between a run that looks closed has live workers; a
restart at that point leaves them alone for good.

## Main definitions

* `Unattended` — a live worker of a run that looks closed.
* `Attended` — otherwise, unless the run is being armed; an invariant.
* `closed_attended` — without such a restart, there is never one between iterations.
* `crashed_unattended` — with one, there is.
-/

namespace Graphlab.Runtime

open Lib Supervised

variable {s t : Shared}

/-- The coverage of the run, which requires capture, says that its captures are closed. -/
def State.LooksClosed (d : State) (id : RunId) : Prop :=
  ∃ r, d.runs[id]? = some r ∧ r.recording = true ∧ r.captureCoverage.isClosed = true

/-- Some run looks closed in the document and has a live worker. -/
def Unattended (world : World) (d : State) : Prop :=
  ∃ id x, d.LooksClosed id ∧ (id, x) ∈ world.workers

/-- A run that looks closed has no live worker, unless it is being armed. -/
def Attended (s : Shared) (d : State) : Prop :=
  ∀ ⦃id : RunId⦄, d.LooksClosed id → NoWorkers s id ∨ arming id s.log = true

theorem Attended.not_unattended {d : State} (h : Attended s d) (hcalm : Calm s.log) :
    ¬ Unattended s.world d := by
  rintro ⟨id, x, hclosed, hx⟩
  rcases h hclosed with hno | harming
  · exact hno x hx
  · simp [hcalm id] at harming

/-- A run looks closed after a region if its captures were just closed, or it did before. -/
theorem WriteGuard.looksClosed {ph : Phase} {w : Write} (hg : WriteGuard ph s w) {id : RunId}
    {clock : Clock} (h : (w.apply clock s.mem).LooksClosed id) :
    NoWorkers s id ∨ s.mem.LooksClosed id := by
  obtain ⟨_, hr', hrec', hclosed⟩ := h
  obtain ⟨r, hr, he⟩ := Write.run_of_apply hr'
  have hrec : r.recording = true := he.recording_eq ▸ hrec'
  have hbefore : r.captureCoverage.isClosed = true → s.mem.LooksClosed id := fun h => ⟨r, hr, hrec, h⟩
  cases he with
  | same => exact .inr (hbefore hclosed)
  | telemetryError => exact .inr (hbefore hclosed)
  | faultDone => exact .inr (hbefore hclosed)
  | interrupted => exact .inr (hbefore hclosed)
  | faultBegin job i hi hid =>
    obtain ⟨_, _, heq⟩ := Write.beginRun_eq clock r i
    rw [heq] at hclosed
    exact .inr (hbefore hclosed)
  | failed =>
    simp only [Write.failRun, hrec, if_true] at hclosed
    cases hclosed
  | finished job last observation hid =>
    obtain ⟨_, ho, hrun, hc⟩ := hg
    have hlast : last = r := by
      have := ho.run_eq
      rw [hrun, hid, hr] at this
      exact (Option.some.inj this).symm
    subst hlast
    have hcov := hc.coverage hrec
    by_cases hready : last.state = .ready
    · simp only [Write.finishRun, hrec, if_true, Run.completedCoverage, hready, beq_self_eq_true]
        at hclosed
      cases hclosed
    · rw [if_neg hready] at hcov
      exact .inr (hbefore hcov)
  | run write =>
    have hg := hg r hr
    rw [RunWrite.apply_captureCoverage] at hclosed
    cases write with
    | closed => exact .inl hg.1
    | armed => simp [Coverage.isClosed] at hclosed
    | monitorFailed => simp [Coverage.isClosed] at hclosed
    | adoptionFailed => simp [Coverage.isClosed] at hclosed
    | adopting =>
      refine .inr (hbefore ?_)
      cases hl : r.captureCoverage <;>
        simp_all [adoptingCoverage, Coverage.isClosed]
    | _ => exact .inr (hbefore hclosed)

/-- A commit while a run is armed settles its coverage. -/
theorem Guard.settles {ph : Phase} {w : Write} (hg : Guard ph s (.commit w)) {id : RunId}
    (harming : arming id s.log = true) (clock : Clock) :
    ¬ (w.apply clock s.mem).LooksClosed id := by
  rintro ⟨r', hr', hrec, hclosed⟩
  have hsettles := hg.2.1 id harming
  cases w with
  | run i write =>
    cases write with
    | armed =>
      obtain rfl : i = id := hsettles
      have hr' : (s.mem.modifyRun i _).runs[i]? = some r' := hr'
      rw [State.modifyRun_run, Option.map_eq_some_iff] at hr'
      obtain ⟨r, -, rfl⟩ := hr'
      simp [RunWrite.apply_captureCoverage, Coverage.isClosed] at hclosed
    | _ => exact hsettles
  | failed =>
    obtain ⟨_, hfails⟩ := hg.1
    obtain ⟨rfl, _, hr, hrec₀⟩ := hfails.window id harming
    rw [Write.apply_run, hr] at hr'
    simp only [Write.onRun, hfails.mem, Option.map_some, if_true, Option.some.injEq] at hr'
    subst hr'
    simp only [Write.failRun, hrec₀, if_true] at hclosed
    cases hclosed
  | _ => exact hsettles

/-- A call starts workers only of a run that is being armed from then on. -/
theorem Attended.call {d : State} (h : Attended s d) (n : ℕ) (c : Call) (out : Outcome) :
    Attended ((s.tick n).call c out).2 d := by
  intro id hclosed
  by_cases harm : ∃ run, c = .captureControl run .arm ∧ run.id = id
  · obtain ⟨run, rfl, rfl⟩ := harm
    exact .inr (by simp [Shared.call, arming])
  · refine (h hclosed).imp (fun hno x hx => ?_) fun harming => ?_
    · rcases Call.effect_workers hx with hold | ⟨run, rfl, hnew⟩
      · exact hno x hold
      · simp only [Run.captureWorkers, List.mem_toFinset, List.mem_map, Prod.mk.injEq] at hnew
        obtain ⟨-, -, hid, -⟩ := hnew
        exact harm ⟨run, rfl, hid⟩
    · show arming id (.called c out.error :: s.log) = true
      unfold arming
      split <;> simp_all

/-- The invariant, of memory and of the journal. -/
def Watchful (s : Shared) : Prop := Attended s s.mem ∧ Attended s s.journal

namespace Watchful

theorem does (h : Watchful s) {ph : Phase} {o : Op} (hst : Does ph s o t) : Watchful t := by
  have hregion : ∀ (w : Write) (clock : Clock), WriteGuard ph s w →
      Attended s (w.apply clock s.mem) := by
    intro w clock hg id hclosed
    rcases hg.looksClosed hclosed with hno | hclosed
    · exact .inl hno
    · exact h.1 hclosed
  cases hst with
  | wait => exact h
  | update _ n w hg hw => exact ⟨hregion w _ hg, h.2⟩
  | failCommit n w code hg => exact ⟨hregion w _ hg.1, h.2⟩
  | failTake => exact ⟨h.1, h.2⟩
  | call n c out hg => exact ⟨h.1.call n c out, h.2.call n c out⟩
  | take n j job hloop hs hj hq =>
    have hno : Attended { s with log := .taken j :: s.log } s.mem := fun id hclosed =>
      .inl ((h.1 hclosed).resolve_right (by simp [hloop.calm id]))
    exact ⟨hno, hno⟩
  | commit n w hg =>
    have hno : Attended ((s.tick n).commit w none).2 (w.apply (s.tick n).clock s.mem) := by
      intro id hclosed
      exact .inl ((hregion w _ hg.1 hclosed).resolve_right fun harming =>
        hg.settles harming _ hclosed)
    exact ⟨hno, hno⟩

theorem serve (h : Watchful s) (hst : Serve s t) : Watchful t := by
  have hmem : Attended t t.mem := by
    rintro id ⟨r', hr', hrec, hclosed⟩
    unfold NoWorkers
    rw [hst.world_eq, hst.log_eq]
    rcases hst.run_of hr' with ⟨r, hr, _, _, _, _, _, rfl, -⟩ | ⟨-, -, _, _, topology, _, _, rfl⟩
    · exact h.1 ⟨r, hr, hrec, hclosed⟩
    · simp only at hclosed
      split at hclosed <;> simp [Coverage.isClosed] at hclosed
  refine ⟨hmem, ?_⟩
  rcases hst.journal_eq with hj | hj
  · exact hj ▸ hmem
  · intro id hclosed
    unfold NoWorkers
    rw [hst.world_eq, hst.log_eq]
    exact h.2 (hj ▸ hclosed)

end Watchful

/-- No restart comes while a run that looks closed in the journal has a live worker. -/
def KeepsWatch : StepCondition := fun c i =>
  ∀ b, i = .restart b → ¬ Unattended c.state.world c.state.journal

theorem Reached.watchful {site : Site} {c : Agent} (h : Reaches site KeepsWatch c) :
    Watchful c.state := by
  refine (outline site).invariant (J := Watchful) ?_ ?_ ?_ ?_ h
  · exact ⟨fun _ ⟨_, hr, _⟩ => by simp at hr, fun _ ⟨_, hr, _⟩ => by simp at hr⟩
  · exact fun c a _ hinv hJ => arrive_keeps (fun _ _ _ hst h => h.serve hst) hinv hJ a
  · exact fun c out o _ _ _ hg hJ => hJ.does (perform_does hg out)
  · intro c b hok _ _
    have hno : Attended (reboot b c.state) c.state.journal := fun id hclosed =>
      .inl fun x hx => hok b rfl ⟨id, x, hclosed, hx⟩
    exact ⟨hno, hno⟩

/-- **Closed captures have no live workers.**  In every run in which no restart comes
while a run that looks closed in the journal has a live worker: whenever the worker is
between two iterations, so after each job and at the end of the constructor, no run that
looks closed, in memory or in the journal, has a live worker. -/
theorem closed_attended {site : Site} {c : Agent} (h : Reaches site KeepsWatch c)
    (hidle : c.thread = .idle) :
    ¬ Unattended c.state.world c.state.mem ∧ ¬ Unattended c.state.world c.state.journal := by
  have hw := Reached.watchful h
  have hcalm := (Reached.loop h hidle).calm
  exact ⟨hw.1.not_unattended hcalm, hw.2.not_unattended hcalm⟩

/-- The condition is needed: the restart itself leaves the worker unattended. -/
theorem unattended_restart {site : Site} {c : Agent} (b : Boot)
    (hun : Unattended c.state.world c.state.journal) :
    Unattended ((engine site).step c (.restart b)).state.world
      ((engine site).step c (.restart b)).state.mem := hun

/-! ## Two runs -/

/-- At a restart no worker is live. -/
def workless (c : Agent) : Choice → Bool
  | .restart _ => decide (c.state.world.workers = ∅)
  | _ => true

theorem keepsWatch_of_workless (c : Agent) (i : Choice) (h : workless c i = true) :
    KeepsWatch c i := by
  rintro b rfl ⟨id, x, -, hx⟩
  simp [of_decide_eq_true h] at hx

theorem State.looksClosed_of_map {d : State} {id : RunId}
    (h : d.runs[id]?.map (fun r => (r.recording, r.captureCoverage.isClosed)) =
      some (true, true)) : d.LooksClosed id := by
  obtain ⟨r, hr, heq⟩ := Option.map_eq_some_iff.1 h
  simp only [Prod.mk.injEq] at heq
  exact ⟨r, hr, heq⟩

/-- A run with capture is started and stopped. -/
def recorded : List Choice :=
  Sample.up ++ Sample.start "a" "j1" "start-one" :: Sample.working 32 ++
    Sample.operate "a" "stop" "1" "j2" "stop-one" :: Sample.working 11

theorem closed_attended_recorded :
    let c := (engine (Sample.wired true)).run initial recorded
    c.state.mem.LooksClosed "a" ∧ ¬ Unattended c.state.world c.state.mem :=
  have hidle : ((engine (Sample.wired true)).run initial recorded).thread = .idle :=
    Thread.eq_idle (by decide)
  have hreach : Reaches (Sample.wired true) KeepsWatch
      ((engine (Sample.wired true)).run initial recorded) :=
    Path.of_checks keepsWatch_of_workless .refl recorded (by decide)
  ⟨State.looksClosed_of_map (by decide), (closed_attended hreach hidle).1⟩

/-- It is resumed, and the agent crashes after the workers were armed. -/
def crashed : List Choice :=
  recorded ++ Sample.operate "a" "resume" "2" "j3" "resume-one" :: Sample.working 16 ++
    .restart {} :: Sample.working 11

/-- The new process is up, the run looks closed, and its worker is live. -/
theorem crashed_unattended : ∃ c, Reached (Sample.wired true) c ∧ c.thread = .idle ∧
    Unattended c.state.world c.state.mem ∧ Unattended c.state.world c.state.journal := by
  refine ⟨(engine (Sample.wired true)).run initial crashed, path_run initial crashed,
    Thread.eq_idle (by decide +kernel), ⟨"a", "", ?_, by decide +kernel⟩,
    ⟨"a", "", ?_, by decide +kernel⟩⟩
  · exact State.looksClosed_of_map (by decide +kernel)
  · exact State.looksClosed_of_map (by decide +kernel)

end Graphlab.Runtime
