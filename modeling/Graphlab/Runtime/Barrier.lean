import Graphlab.Runtime.Outline

/-!
# Captures and the gates

The gates of a run whose topology requires capture open only behind a barrier: a new
capture epoch was committed, its descriptors were committed, the workers were armed, the
workloads activated, and the workers found recording, all within one job.  `Guard` has
the barrier; what is added here is that descriptors are never dropped: `nextEpoch` moves
them into the history, and `planned` finds no others in their place.

## Main results

* `State.Recorded`, `journal_recorded` — a committed descriptor stays.
* `capture_barrier` — the barrier, the lease, the epochs and the descriptors.
-/

namespace Graphlab.Runtime

open Lib Supervised

variable {s t : Shared}

/-- The run has the capture descriptor, among the current ones or in its history. -/
def State.Recorded (d : State) (id : RunId) (x : Capture) : Prop :=
  ∃ r, d.runs[id]? = some r ∧ x ∈ r.captureHistory ++ r.captures

variable {id : RunId} {x : Capture}

/-- A region keeps the descriptors. -/
theorem WriteGuard.recorded {ph : Phase} {w : Write} (hg : WriteGuard ph s w)
    (h : s.mem.Recorded id x) (clock : Clock) : (w.apply clock s.mem).Recorded id x := by
  obtain ⟨r, hr, hx⟩ := h
  obtain ⟨r', hr', he⟩ := @Write.run_apply clock s.mem w _ _ hr
  refine ⟨r', hr', ?_⟩
  cases he with
  | run write =>
    have hg := hg r hr
    rw [RunWrite.apply_captureHistory, RunWrite.apply_captures]
    cases write with
    | nextEpoch => simpa using hx
    | planned =>
      -- The place is free, so all there was is in the history.
      rw [hg.2.2, List.append_nil] at hx
      exact List.mem_append_left _ hx
    | _ => exact hx
  | faultBegin job i hi hid =>
    obtain ⟨_, _, heq⟩ := Write.beginRun_eq clock r i
    rw [heq]
    exact hx
  | _ => exact hx

theorem Does.recorded {ph : Phase} {o : Op} (hst : Does ph s o t)
    (h : s.mem.Recorded id x) : t.mem.Recorded id x :=
  hst.mem_of (P := fun d => d.Recorded id x) h (fun _ clock hg => hg.recorded h clock)
    fun _ _ _ _ => h

theorem Serve.recorded (hst : Serve s t) (h : s.mem.Recorded id x) : t.mem.Recorded id x := by
  obtain ⟨_, hr, hx⟩ := h
  obtain ⟨_, hr', _, _, _, _, _, rfl, -⟩ := hst.run hr
  exact ⟨_, hr', hx⟩

/-- A committed descriptor stays for ever. -/
theorem journal_recorded {site : Site} {ok : StepCondition} {c c' : Agent} (h : Reaches site ok c)
    (hpath : (engine site).Path always c c')
    (hx : c.state.journal.Recorded id x) : c'.state.journal.Recorded id x :=
  journal_keeps (P := fun d => d.Recorded id x) (fun _ _ _ hst => hst.recorded)
    (fun _ _ _ _ _ hst hx _ => hst.recorded hx) h hpath hx

/-- **The capture barrier.**  In every reachable state: the worker is about to release
the gates of a run that requires capture only behind the barrier of the job it
executes; it renews their lease only for a run it found ready; it arms only an epoch
above all epochs armed before; and each descriptor in the journal stays there. -/
theorem capture_barrier {site : Site} {c : Agent} (h : Reached site c) :
    (∀ run, c.thread.nextOp = some (.call (.gate run .release)) → run.recording = true →
      ∃ j job, Owns c.state j job run ∧ job.runId = run.id ∧ Barrier j run.id c.state.log) ∧
    (∀ run, c.thread.nextOp = some (.call (.gate run .renew)) → run.state = .ready) ∧
    (∀ run, c.thread.nextOp = some (.call (.captureControl run .arm)) →
      ∀ (old : Run) (e : Option String), .called (.captureControl old .arm) e ∈ c.state.log →
        old.id = run.id → old.captureEpoch < run.captureEpoch) ∧
    (∀ c', (engine site).Path always c c' → ∀ (id : RunId) (x : Capture),
      c.state.journal.Recorded id x → c'.state.journal.Recorded id x) := by
  refine ⟨fun run ho hrec => ?_, fun run ho => Reached.guard h ho, fun run ho => ?_,
    fun c' hpath id x hx => journal_recorded h hpath hx⟩
  · obtain ⟨j, job, howns, hid, -, hbarrier⟩ := Reached.guard h ho
    exact ⟨j, job, howns, hid, hbarrier hrec⟩
  · obtain ⟨-, -, -, -, hepoch⟩ := Reached.guard h ho
    exact hepoch

/-- A start whose worker is about to release the gates. -/
def release : List Choice := Sample.up ++ Sample.start "a" "j1" "start-one" :: Sample.working 26

/-- The run whose gates the worker is about to release. -/
def Op.releases : Op → Option Run
  | .call (.gate run .release) => some run
  | _ => none

theorem Op.releases_some {o : Op} {run : Run} (h : o.releases = some run) :
    o = .call (.gate run .release) := by
  unfold releases at h
  split at h
  · cases h; rfl
  · cases h

theorem capture_barrier_start :
    ∃ (run : Run) (j : JobId), run.recording = true ∧
      Barrier j run.id ((engine (Sample.wired true)).run initial release).state.log := by
  have hop : (((engine (Sample.wired true)).run initial release).thread.nextOp.bind
      Op.releases).map Run.recording = some true := by decide
  obtain ⟨run, hrun, hrec⟩ := Option.map_eq_some_iff.1 hop
  obtain ⟨_, ho, hrun⟩ := Option.bind_eq_some_iff.1 hrun
  obtain rfl := Op.releases_some hrun
  obtain ⟨j, -, -, -, hbarrier⟩ :=
    (@capture_barrier (Sample.wired true) _ (path_run initial release)).1 run ho hrec
  exact ⟨run, j, hrec, hbarrier⟩

end Graphlab.Runtime
