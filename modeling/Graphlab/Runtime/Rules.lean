import Graphlab.Runtime.Preserve

/-!
# Rules for verifying the worker

The worker is verified against requests.  While it executes a job, requests can do
little: ask for cancellation, or stop the agent.  `At` is the assertion that carries
this: the job is running in memory and journal, both have the same runs, and the run
of the job is known exactly.  When `save` or a call throws, what is left is `Fallen`,
all that the failure handler relies on.

## Main definitions

* `served` — the setting of the worker.
* `Held`, `At`, `Fallen` — where a job stands, and where it fell.
* `At.call`, `Held.commit`, `At.snapshot` — one rule for each kind of operation.
-/

namespace Graphlab.Runtime

open Lib Lib.Discipline

/-- The setting of the worker. -/
abbrev served (site : Site) : Discipline Op Ans Shared :=
  ⟨fun o s b t => ∃ out, perform o out s = (b, t), fun s t => ∃ a, t = arrive site a s, Inv,
    Guard .body⟩

variable {site : Site}

/-- Stability is a case analysis over the changes of requests. -/
theorem stable_of_serve {P : Shared → Prop} (h : ∀ s t, Inv s → Serve s t → P s → P t) :
    (served site).Stable P := by
  rintro s t hs ⟨a, rfl⟩ - hP
  have hserved := arrive_serve site a s
  generalize arrive site a s = t at hserved
  suffices Inv t ∧ P t from this.2
  induction hserved with
  | refl => exact ⟨hs, hP⟩
  | tail _ hstep ih => exact ⟨ih.1.serve_step hstep, h _ _ ih.1 hstep ih.2⟩

/-- A guarded branch: both ways lead to the continuation. -/
theorem wp_when {S : Type} {D : Discipline Op Ans S} {α : Type} {c : Bool} {a : Act Unit}
    {k : Unit → Act α} {Q : α → S → Prop} {E : Failure → S → Prop} {s : S}
    (ht : c = true → D.wp (a.bind k) Q E s) (hf : c = false → D.wp (k ()) Q E s) :
    D.wp ((Act.when c a).bind k) Q E s := by
  cases c with
  | true => exact ht rfl
  | false => exact hf rfl

/-- A branch that leads to one assertion either way. -/
theorem wp_when_join {D : Discipline Op Ans Shared} {α : Type} {c : Bool} {a : Act Unit}
    {k : Unit → Act α} {Q : α → Shared → Prop} {E : Failure → Shared → Prop} {P : Shared → Prop}
    {s : Shared} (hs : D.inv s)
    (ht : c = true → D.wp a (fun _ => P) E s) (hf : c = false → P s)
    (hk : ∀ t, P t → D.inv t → D.wp (k ()) Q E t) : D.wp ((Act.when c a).bind k) Q E s :=
  wp_when (fun h => wp_bind (wp_mono (fun _ t hinv hP => hk t hP hinv) (fun _ _ _ h => h) (ht h)))
    fun h => hk s (hf h) hs

/-! ## Where a job stands -/

/-- The worker executes job `j`, a version of `job`, on the run `r`; `F` is what is
known of the world and the log. -/
structure Held (j : JobId) (job : Job) (r : Run) (F : World → List Event → Prop) (s : Shared) :
    Prop where
  running : job.state = .running
  mem : ∃ c, s.mem.jobs[j]? = some { job with cancelRequested := c }
  journal : ∃ c, s.journal.jobs[j]? = some { job with cancelRequested := c }
  sync : s.journal.runs = s.mem.runs
  run : s.mem.runs[job.runId]? = some r
  current : Current j s.log
  window : ∀ id, arming id s.log = true → id = job.runId ∧ r.recording = true
  outside : F s.world s.log

/-- The job is `Held`, outside the window between arming and its commit. -/
structure At (j : JobId) (job : Job) (r : Run) (F : World → List Event → Prop) (s : Shared) :
    Prop extends Held j job r F s where
  calm : Calm s.log

/-- The region changes the coverage of no run but `id`. -/
def Write.Confined (id : RunId) (w : Write) : Prop :=
  ∀ (clock : Clock) (d : State) (i : RunId) (r r' : Run), i ≠ id → w.RunEffect clock d i r r' →
    r'.captureCoverage = r.captureCoverage

/-- The job `j` was given up: what the failure handler relies on. -/
structure Fallen (j : JobId) (job : Job) (s : Shared) : Prop where
  mem : ∃ x, s.mem.jobs[j]? = some x ∧ x.runId = job.runId ∧
    (s.stopping = false → x.state = .running)
  journal : ∃ x, s.journal.jobs[j]? = some x ∧ x.state = .running ∧ x.runId = job.runId
  run : ∃ r, s.mem.runs[job.runId]? = some r
  alone : ∀ (i : JobId) (x : Job), s.mem.jobs[i]? = some x → x.pending = true → i = j
  coverage : ∀ id, id ≠ job.runId → SameCoverage s id
  window : ∀ id, arming id s.log = true →
    id = job.runId ∧ ∃ r, s.mem.runs[id]? = some r ∧ r.recording = true

/-- Nothing is known of the world and the log. -/
def Anything : World → List Event → Prop := fun _ _ => True

/-- After a call. -/
def Called (c : Call) (error : Option String) (F : World → List Event → Prop) :
    World → List Event → Prop :=
  fun w log => ∃ w₀ log₀ out, F w₀ log₀ ∧ out.error = error ∧ w = c.effect out w₀ ∧
    log = .called c error :: log₀

/-- After a commit that took the run `id` from `r` to `r'`. -/
def Saved (id : RunId) (w : RunWrite) (r r' : Run) (F : World → List Event → Prop) :
    World → List Event → Prop :=
  fun world log => ∃ log₀ before after, F world log₀ ∧ before.runs[id]? = some r ∧
    after.runs[id]? = some r' ∧ log = .committed (.run id w) before after :: log₀

variable {j : JobId} {job : Job} {r : Run} {F : World → List Event → Prop} {s t : Shared}

variable {c : Call} {w : Write}

theorem arming_called (hc : ∀ run, c ≠ .captureControl run .arm) (id : RunId)
    (error : Option String) (log : List Event) :
    arming id (.called c error :: log) = arming id log := by
  cases c with
  | captureControl run operation =>
    cases operation with
    | arm => exact absurd rfl (hc run)
    | _ => rfl
  | _ => rfl

theorem Current.cons {log : List Event} (h : Current j log) {e : Event} (hr : e ≠ .restarted)
    (ht : ∀ i, e ≠ .taken i) : Current j (e :: log) := by
  obtain ⟨since, before, rfl, hsince⟩ := h
  refine ⟨e :: since, before, rfl, fun x hx => ?_⟩
  rcases List.mem_cons.1 hx with rfl | hx
  · exact ⟨hr, ht⟩
  · exact hsince x hx

theorem Write.confined_run (id : RunId) (w : RunWrite) : (Write.run id w).Confined id := by
  intro clock d i r r' hne he
  cases he with
  | same => rfl
  | run => exact absurd rfl hne

namespace Held

/-- A running job is pending. -/
theorem hasPending (h : Held j job r F s) : s.mem.hasPending = true := by
  obtain ⟨_, hc⟩ := h.mem
  exact (State.hasPending_iff _).2 ⟨j, _, hc, by simp [Job.pending, h.running]⟩

theorem owns (h : Held j job r F s) :
    ∃ c, Owns s j { job with cancelRequested := c } r := by
  obtain ⟨c, hc⟩ := h.mem
  exact ⟨c, hc, h.running, h.run⟩

theorem journal_run (h : Held j job r F s) : s.journal.runs[job.runId]? = some r := by
  rw [h.sync]; exact h.run

theorem coverage (h : Held j job r F s) (id : RunId) : SameCoverage s id :=
  fun old hold => ⟨old, h.sync ▸ hold, rfl⟩

theorem run_id (h : Held j job r F s) (hinv : Inv s) : r.id = job.runId := hinv.mem.run_id h.run

/-- What is left when the job is given up here. -/
theorem fallen (h : Held j job r F s) (hinv : Inv s) : Fallen j job s := by
  obtain ⟨_, hc⟩ := h.mem
  obtain ⟨_, hc'⟩ := h.journal
  refine ⟨⟨_, hc, rfl, fun _ => h.running⟩, ⟨_, hc', h.running, rfl⟩, ⟨r, h.run⟩, ?_,
    fun id _ => h.coverage id, fun id hid => ?_⟩
  · intro i x hx hp
    exact hinv.mem.one_pending hx hc hp (by simp [Job.pending, h.running])
  · obtain ⟨rfl, hrec⟩ := h.window id hid
    exact ⟨rfl, r, h.run, hrec⟩

/-- While a job is executed, a request can only ask for cancellation or stop the agent. -/
theorem serve (h : Held j job r F s) (hst : Serve s t) : Held j job r F t := by
  have hruns := hst.runs_eq h.hasPending
  obtain ⟨_, hc⟩ := h.mem
  obtain ⟨c', hc'⟩ := hst.job hc
  refine ⟨h.running, ⟨c', hc'⟩, ?_, ?_, hruns ▸ h.run, hst.log_eq ▸ h.current,
    hst.log_eq ▸ h.window, hst.world_eq ▸ hst.log_eq ▸ h.outside⟩
  · rcases hst.journal_eq with hj | hj
    · exact hj ▸ ⟨c', hc'⟩
    · exact hj ▸ h.journal
  · rcases hst.journal_eq with hj | hj
    · rw [hj]
    · rw [hj, hruns]; exact h.sync

theorem stable : (served site).Stable (Held j job r F) :=
  stable_of_serve fun _ _ _ hst h => h.serve hst

end Held

namespace At

theorem mono (h : At j job r F s) {G : World → List Event → Prop}
    (hG : ∀ w log, F w log → G w log) : At j job r G s :=
  { h with outside := hG _ _ h.outside }

theorem anything (h : At j job r F s) : At j job r Anything s := h.mono fun _ _ _ => trivial

theorem stable : (served site).Stable (At j job r F) :=
  stable_of_serve fun _ _ _ hst h => ⟨h.toHeld.serve hst, hst.log_eq ▸ h.calm⟩

end At

namespace Fallen

theorem serve (h : Fallen j job s) (hst : Serve s t) : Fallen j job t := by
  obtain ⟨x, hx, hrun, hstate⟩ := h.mem
  have hbusy : ∀ {p : Prop}, s.stopping = false → s.mem.hasPending = false → p := by
    intro p hs hidle
    have := (State.hasPending_eq_false_iff _).1 hidle j x hx
    simp [Job.pending, hstate hs] at this
  cases hst with
  | stop => exact { h with mem := ⟨x, hx, hrun, fun hs => by simp at hs⟩ }
  | cancel i y error hs hi hp =>
    obtain rfl := h.alone i y hi hp
    have hmem : (s.mem.modifyJob i fun x => { x with cancelRequested := true }).jobs[i]? =
        some { x with cancelRequested := true } := by
      rw [State.modifyJob_job, hx]; simp
    have halone : ∀ (k : JobId) (y : Job),
        (s.mem.modifyJob i fun x => { x with cancelRequested := true }).jobs[k]? = some y →
        y.pending = true → k = i := by
      intro k y hy hp
      rw [State.modifyJob_job, Option.map_eq_some_iff] at hy
      obtain ⟨z, hz, rfl⟩ := hy
      refine h.alone k z hz ?_
      split at hp <;> exact hp
    cases error with
    | none =>
      exact ⟨⟨_, hmem, hrun, fun _ => hstate hs⟩, ⟨_, hmem, hstate hs, hrun⟩, h.run, halone,
        fun id _ old hold => ⟨old, hold, rfl⟩, h.window⟩
    | some =>
      exact ⟨⟨_, hmem, hrun, fun hs => by simp [Shared.saveRequest] at hs⟩, h.journal, h.run,
        halone, h.coverage, h.window⟩
  | enrol job' run key hash error hs hidle => exact hbusy hs hidle
  | session id r' d error hs hidle => exact hbusy hs hidle
  | sessionLost id error hs hidle => exact hbusy hs hidle
  | source key c error hs hidle => exact hbusy hs hidle

theorem stable : (served site).Stable (Fallen j job) :=
  stable_of_serve fun _ _ _ hst h => h.serve hst

end Fallen

namespace Loop

theorem serve (h : Loop s) (hst : Serve s t) : Loop t where
  unowned j x' hx' := by
    rcases hst.job_of hx' with ⟨x, c, hx, rfl⟩ | ⟨-, -, hq⟩
    · have hstate : x.state ≠ .running := h.unowned hx
      exact hstate
    · simp [hq]
  calm := hst.log_eq ▸ h.calm
  coverage id old hold := by
    rcases hst.journal_eq with hj | hj
    · exact ⟨old, hj ▸ hold, rfl⟩
    · obtain ⟨_, hr, hcov⟩ := h.coverage id (hj ▸ hold)
      obtain ⟨_, hr', _, _, _, _, _, rfl, -⟩ := hst.run hr
      exact ⟨_, hr', hcov⟩

theorem stable : (served site).Stable Loop := stable_of_serve fun _ _ _ hst h => h.serve hst

theorem tick (h : Loop s) (n : ℕ) : Loop (s.tick n) := ⟨h.unowned, h.calm, h.coverage⟩

theorem called (h : Loop s) (hc : ∀ run, c ≠ .captureControl run .arm)
    (out : Outcome) : Loop (perform (.call c) out s).2 := by
  refine ⟨h.unowned, fun id => ?_, h.coverage⟩
  exact (arming_called hc id out.error _).trans (h.calm id)

end Loop

/-! ## One rule for each operation -/

/-- The calls that need no guard. -/
def Call.free : Call → Bool
  | .prepare _ _ => false
  | .remove _ _ => false
  | .captureControl _ .arm => false
  | .gate _ .release => false
  | .gate _ .renew => false
  | .fault _ _ .apply => false
  | _ => true

theorem Call.free_guard (hc : c.free = true) (s : Shared) : CallGuard s c := by
  unfold Call.free at hc
  unfold CallGuard
  split at hc <;> simp_all

theorem Call.free_ne_arm (hc : c.free = true) (run : Run) : c ≠ .captureControl run .arm := by
  rintro rfl
  simp [Call.free] at hc

/-- A call that needs no guard. -/
def Op.harmless (o : Op) : Prop := ∃ c, o = .call c ∧ c.free = true

theorem uses_when {C : Op → Prop} {c : Bool} {a : Act Unit} (h : a.Uses C) :
    (Act.when c a).Uses C := by
  cases c with
  | true => exact h
  | false => trivial

theorem perform_commit (hw : ∀ n, w.aborted n = none) (out : Outcome) (s : Shared) :
    perform (.commit w) out s = (s.tick out.elapsed).commit w out.error := by
  have h : (out.abort.bind fun n => w.aborted n) = none := by cases out.abort <;> simp [hw]
  show performCommit w out (s.tick out.elapsed) = _
  simp only [performCommit, h]

variable {α : Type} {Q : α → Shared → Prop} {E : Failure → Shared → Prop}

/-! ## One rule for each kind of operation -/

/-- The operations of the agent among the steps `env` of others. -/
abbrev among (env : Shared → Shared → Prop) (phase : Phase) : Discipline Op Ans Shared :=
  ⟨fun o s b t => ∃ out, perform o out s = (b, t), env, Inv, Guard phase⟩

section Operations

variable {env : Shared → Shared → Prop} {phase : Phase} {P : Shared → Prop}

/-- Reading memory. -/
theorem wp_read (hP : (among env phase).Stable P) (hs : P s) {k : State → Act α}
    (hok : ∀ t n, P t → Inv t → Inv (t.tick n) → (among env phase).wp (k t.mem) Q E (t.tick n)) :
    (among env phase).wp (Act.read.bind k) Q E s := by
  refine wp_bind (wp_perform hP hs (fun _ _ _ => trivial) ?_ ?_)
  · rintro t b u mem ht hinv ⟨out, hout⟩ hu hb
    cases hb
    cases hout
    exact wp_ret stable_wp (hok t out.elapsed ht hinv hu)
  · rintro t b u e - - - - hb
    cases hb

/-- Reading the clock. -/
theorem wp_clock (hP : (among env phase).Stable P) (hs : P s) {k : Clock → Act α}
    (hok : ∀ t n, P t → Inv (t.tick n) →
      (among env phase).wp (k (t.tick n).clock) Q E (t.tick n)) :
    (among env phase).wp (Act.clock.bind k) Q E s := by
  refine wp_bind (wp_perform hP hs (fun _ _ _ => trivial) ?_ ?_)
  · rintro t b u now ht - ⟨out, hout⟩ hu hb
    cases hb
    cases hout
    exact wp_ret stable_wp (hok t out.elapsed ht hu)
  · rintro t b u e - - - - hb
    cases hb

/-- A call. -/
theorem wp_call (hP : (among env phase).Stable P) (hs : P s)
    (hg : ∀ t, P t → Inv t → CallGuard t c) {k : Reply → Act α}
    (hE : ∀ e, (among env phase).Stable (E e))
    (hok : ∀ t out, P t → Inv t → out.error = none → Inv (perform (.call c) out t).2 →
      (among env phase).wp (k out.reply) Q E (perform (.call c) out t).2)
    (herr : ∀ t out code, P t → Inv t → out.error = some code →
      Inv (perform (.call c) out t).2 → E { code } (perform (.call c) out t).2) :
    (among env phase).wp ((Act.call c).bind k) Q E s := by
  refine wp_bind (wp_perform hP hs hg ?_ ?_)
  · rintro t b u reply ht hinv ⟨out, hout⟩ hu hb
    cases hout
    obtain ⟨herror, rfl⟩ := Outcome.answer_ok.1 hb
    exact wp_ret stable_wp (hok t out ht hinv herror hu)
  · rintro t b u e ht hinv ⟨out, hout⟩ hu hb
    cases hout
    obtain ⟨code, herror, rfl⟩ := Outcome.answer_error.1 hb
    exact wp_raise (hE _) (herr t out code ht hinv herror hu)

/-- A region that is saved, or whose `save` throws. -/
theorem wp_commit (hw : ∀ n, w.aborted n = none) (hP : (among env phase).Stable P) (hs : P s)
    (hg : ∀ t, P t → Inv t → Guard phase t (.commit w)) {k : State → Act α}
    (hE : ∀ e, (among env phase).Stable (E e))
    (hok : ∀ t n, P t → Inv t → Inv ((t.tick n).commit w none).2 →
      (among env phase).wp (k (w.apply (t.tick n).clock t.mem)) Q E ((t.tick n).commit w none).2)
    (herr : ∀ t n code, P t → Inv t → Inv ((t.tick n).commit w (some code)).2 →
      E { code } ((t.tick n).commit w (some code)).2) :
    (among env phase).wp ((Act.commit w).bind k) Q E s := by
  refine wp_bind (wp_perform hP hs hg ?_ ?_)
  · rintro t b u mem ht hinv ⟨out, hout⟩ hu hb
    rw [perform_commit hw] at hout
    cases herror : out.error with
    | some => rw [herror] at hout; cases hout; cases hb
    | none =>
      rw [herror] at hout
      cases hout
      cases hb
      exact wp_ret stable_wp (hok t out.elapsed ht hinv hu)
  · rintro t b u e ht hinv ⟨out, hout⟩ hu hb
    rw [perform_commit hw] at hout
    cases herror : out.error with
    | none => rw [herror] at hout; cases hout; cases hb
    | some code =>
      rw [herror] at hout
      cases hout
      cases hb
      exact wp_raise (hE _) (herr t out.elapsed code ht hinv hu)

end Operations

namespace At

/-- A call leaves the job where it stands; `arm` opens the window. -/
theorem called (h : At j job r F s)
    (hc : ∀ run, c = .captureControl run .arm → run.id = job.runId ∧ r.recording = true)
    (out : Outcome) : Held j job r (Called c out.error F) (perform (.call c) out s).2 := by
  refine { h with current := h.current.cons (by simp) (by simp), window := fun id hid => ?_,
                  outside := ⟨s.world, s.log, out, h.outside, rfl, rfl, rfl⟩ }
  have hid : arming id (.called c out.error :: s.log) = true := hid
  by_cases harm : ∃ run, c = .captureControl run .arm
  · obtain ⟨run, rfl⟩ := harm
    simp only [arming, h.calm id, Bool.or_false, beq_iff_eq] at hid
    exact hid ▸ hc run rfl
  · rw [arming_called (fun run hrun => harm ⟨run, hrun⟩), h.calm id] at hid
    cases hid

/-- The rule for calls. -/
theorem call_held (h : At j job r F s)
    (hc : ∀ run, c = .captureControl run .arm → run.id = job.runId ∧ r.recording = true)
    (hg : ∀ t, At j job r F t → Inv t → CallGuard t c) {k : Reply → Act α}
    (hE : ∀ e, (served site).Stable (E e))
    (hok : ∀ t reply, Held j job r (Called c none F) t → Inv t → (served site).wp (k reply) Q E t)
    (herr : ∀ t code, Held j job r (Called c (some code) F) t → Inv t → E { code } t) :
    (served site).wp ((Act.call c).bind k) Q E s :=
  wp_call stable h hg hE (fun _ out ht _ herror => hok _ _ (herror ▸ ht.called hc out))
    fun _ out code ht _ herror => herr _ code (herror ▸ ht.called hc out)

end At

/-- `F`, outside the window of arming. -/
def Calmly (F : World → List Event → Prop) : World → List Event → Prop :=
  fun w log => F w log ∧ Calm log

theorem At.calmly (h : At j job r F s) : At j job r (Calmly F) s :=
  { h with outside := ⟨h.outside, h.calm⟩ }

theorem Held.of_calmly (h : Held j job r (Calmly F) s) : At j job r F s :=
  { h with outside := h.outside.1, calm := h.outside.2 }

/-- A call that is not `arm` leaves the window shut. -/
theorem Held.of_called {error : Option String} (hc : ∀ run, c ≠ .captureControl run .arm)
    (h : Held j job r (Called c error (Calmly F)) s) : At j job r (Called c error F) s := by
  obtain ⟨w₀, log₀, out, ⟨hF, hcalm⟩, herror, hw, hlog⟩ := h.outside
  refine { h with outside := ⟨w₀, log₀, out, hF, herror, hw, hlog⟩, calm := fun id => ?_ }
  rw [hlog, arming_called hc]
  exact hcalm id

/-- The rule for calls other than `arm`. -/
theorem At.call (h : At j job r F s) (hc : ∀ run, c ≠ .captureControl run .arm)
    (hg : ∀ t, At j job r F t → Inv t → CallGuard t c) {k : Reply → Act α}
    (hE : ∀ e, (served site).Stable (E e))
    (hok : ∀ t reply, At j job r (Called c none F) t → Inv t → (served site).wp (k reply) Q E t)
    (herr : ∀ t code, At j job r (Called c (some code) F) t → Inv t → E { code } t) :
    (served site).wp ((Act.call c).bind k) Q E s :=
  h.calmly.call_held (fun run hrun => absurd hrun (hc run)) (fun t ht => hg t ht.of_calmly) hE
    (fun t reply ht => hok t reply (ht.of_called hc)) fun t code ht => herr t code (ht.of_called hc)

namespace Held

/-- A committed region about the run of the job. -/
theorem saved (h : Held j job r F s) (w : RunWrite) (n : ℕ) :
    At j job (w.apply (s.tick n).clock r) (Saved job.runId w r (w.apply (s.tick n).clock r) F)
      ((s.tick n).commit (.run job.runId w) none).2 := by
  obtain ⟨c, hc⟩ := h.mem
  have hrun : (s.mem.modifyRun job.runId fun r => w.apply (s.tick n).clock r).runs[job.runId]? =
      some (w.apply (s.tick n).clock r) := by
    rw [State.modifyRun_run, h.run]; simp
  exact ⟨⟨h.running, ⟨c, hc⟩, ⟨c, hc⟩, rfl, hrun, h.current.cons (by simp) (by simp),
    fun id hid => by simp [Shared.commit, arming] at hid,
    ⟨s.log, s.journal, _, h.outside, h.journal_run, hrun, rfl⟩⟩, fun _ => rfl⟩

/-- A region whose `save` failed, when it touches the coverage of no other run. -/
theorem fallen_of_commit (h : Held j job r F s) (hinv : Inv s) (hw : w.Confined job.runId) (n : ℕ)
    (code : String) : Fallen j job ((s.tick n).commit w (some code)).2 := by
  have hf := h.fallen hinv
  obtain ⟨_, hc⟩ := h.mem
  obtain ⟨x, hx, hxe⟩ := @Write.job_apply (s.tick n).clock s.mem w _ _ hc
  obtain ⟨r', hr', hre⟩ := @Write.run_apply (s.tick n).clock s.mem w _ _ h.run
  refine ⟨⟨x, hx, hxe.core_eq.2.1, fun hs => by simp [Shared.commit] at hs⟩, hf.journal,
    ⟨r', hr'⟩, fun i y hy hp => ?_, fun id hid old hold => ?_, fun id hid => ?_⟩
  · obtain ⟨z, hz, hze⟩ := Write.job_of_apply hy
    exact hf.alone i z hz ((hze.eq_of_pending hp).1 ▸ hp)
  · obtain ⟨r₁, hr₁, hcov⟩ := h.coverage id hold
    obtain ⟨r₂, hr₂, he⟩ := @Write.run_apply (s.tick n).clock s.mem w _ _ hr₁
    exact ⟨r₂, hr₂, (hw _ _ id r₁ r₂ hid he).trans hcov⟩
  · have hid : arming id s.log = true := hid
    obtain ⟨rfl, hrec⟩ := h.window id hid
    exact ⟨rfl, r', hr', hre.recording_eq.trans hrec⟩

/-- The rule for commits. -/
theorem region (h : Held j job r F s) (hw : ∀ n, w.aborted n = none) (hconf : w.Confined job.runId)
    (hg : ∀ t, Held j job r F t → Inv t → WriteGuard .body t w ∧
      ∀ id, arming id t.log = true → Settles id w) {k : State → Act α}
    (hE : ∀ e, (served site).Stable (E e))
    (hok : ∀ t n, Held j job r F t → Inv t → Inv ((t.tick n).commit w none).2 →
      (served site).wp (k (w.apply (t.tick n).clock t.mem)) Q E ((t.tick n).commit w none).2)
    (herr : ∀ t code, Fallen j job t → Inv t → E { code } t) :
    (served site).wp ((Act.commit w).bind k) Q E s :=
  wp_commit hw stable h
    (fun t ht hinv => ⟨(hg t ht hinv).1, (hg t ht hinv).2, .inl ht.coverage⟩) hE hok
    fun _ n code ht hinv => herr _ code (ht.fallen_of_commit hinv hconf n code)

/-- The rule for commits about the run of the job. -/
theorem commit (h : Held j job r F s) (w : RunWrite)
    (hw : ∀ n, (Write.run job.runId w).aborted n = none)
    (hg : ∀ t, Held j job r F t → Inv t → RunGuard .body t job.runId r w ∧
      ∀ id, arming id t.log = true → Settles id (.run job.runId w)) {k : State → Act α}
    (hE : ∀ e, (served site).Stable (E e))
    (hok : ∀ t mem clock, At j job (w.apply clock r)
      (Saved job.runId w r (w.apply clock r) F) t → Inv t → (served site).wp (k mem) Q E t)
    (herr : ∀ t code, Fallen j job t → Inv t → E { code } t) :
    (served site).wp ((Act.commit (.run job.runId w)).bind k) Q E s := by
  refine h.region hw (Write.confined_run _ w) (fun t ht hinv => ⟨fun r' hr' => ?_, ?_⟩) hE
    (fun t n ht _ hu => hok _ _ _ (ht.saved w n) hu) herr
  · cases ht.run.symm.trans hr'
    exact (hg t ht hinv).1
  · exact (hg t ht hinv).2

end Held

/-- What a job's exceptions end in: at least everything that follows from a fall. -/
structure Catches (site : Site) (j : JobId) (job : Job) (E : Failure → Shared → Prop) : Prop where
  stable : ∀ e, (served site).Stable (E e)
  of_fallen : ∀ e t, Fallen j job t → Inv t → E e t

theorem catches_fallen : Catches site j job fun _ => Fallen j job :=
  ⟨fun _ => Fallen.stable, fun _ _ h _ => h⟩

/-- A commit whose result nobody uses. -/
theorem Held.commit' (h : Held j job r F s) (hE : Catches site j job E) (w : RunWrite)
    (hw : ∀ n, (Write.run job.runId w).aborted n = none)
    (hg : ∀ t, Held j job r F t → Inv t → RunGuard .body t job.runId r w ∧
      ∀ id, arming id t.log = true → Settles id (.run job.runId w)) {k : Unit → Act α}
    (hok : ∀ t clock, At j job (w.apply clock r) (Saved job.runId w r (w.apply clock r) F) t →
      Inv t → (served site).wp (k ()) Q E t) :
    (served site).wp ((Act.commit' (.run job.runId w)).bind k) Q E s := by
  refine wp_bind (h.commit w hw hg hE.stable (fun t _ clock ht hinv => ?_) fun t _ ht hinv => ?_)
  · exact wp_ret stable_wp (hok t clock ht hinv)
  · exact hE.of_fallen _ t ht hinv

namespace At

theorem tick (h : At j job r F s) (n : ℕ) : At j job r F (s.tick n) := { h with }

/-- Reading memory. -/
theorem read (h : At j job r F s) {k : State → Act α}
    (hok : ∀ t, At j job r F t → Inv t → (served site).wp (k t.mem) Q E t) :
    (served site).wp (Act.read.bind k) Q E s :=
  wp_read stable h fun _ n ht _ => hok _ (ht.tick n)

theorem snapshot (h : At j job r F s) {k : Job × Run → Act α}
    (hok : ∀ t c, At j job r F t → Inv t →
      (served site).wp (k ({ job with cancelRequested := c }, r)) Q E t) :
    (served site).wp ((Runtime.snapshot j).bind k) Q E s := by
  refine wp_bind (h.read fun t ht hinv => ?_)
  obtain ⟨c, hc⟩ := ht.mem
  simp only [hc, ht.run]
  exact wp_ret stable_wp (hok t c ht hinv)

theorem readRun (h : At j job r F s) {k : Run → Act α}
    (hok : ∀ t, At j job r F t → Inv t → (served site).wp (k r) Q E t) :
    (served site).wp ((Runtime.readRun job.runId).bind k) Q E s := by
  refine wp_bind (h.read fun t ht hinv => ?_)
  simp only [ht.run]
  exact wp_ret stable_wp (hok t ht hinv)

theorem cancelled (h : At j job r F s) (hE : Catches site j job E) {k : Bool → Act α}
    (hok : ∀ t b, At j job r F t → Inv t → (served site).wp (k b) Q E t) :
    (served site).wp ((Act.cancelled j).bind k) Q E s := by
  refine wp_bind (wp_perform stable h (fun _ _ _ => trivial) ?_ ?_)
  · rintro t b u c ht hinv ⟨out, hout⟩ hu hb
    cases hout
    exact wp_ret stable_wp (hok _ c (ht.tick out.elapsed) hu)
  · rintro t b u e ht hinv ⟨out, hout⟩ hu hb
    cases hout
    exact wp_raise (hE.stable e) (hE.of_fallen e _ ((ht.tick out.elapsed).fallen hu) hu)

/-- A call whose result nobody uses. -/
theorem call' (h : At j job r F s) (hE : Catches site j job E)
    (hc : ∀ run, c ≠ .captureControl run .arm) (hg : ∀ t, At j job r F t → Inv t → CallGuard t c)
    {k : Unit → Act α}
    (hok : ∀ t, At j job r (Called c none F) t → Inv t → (served site).wp (k ()) Q E t) :
    (served site).wp ((Act.call' c).bind k) Q E s := by
  refine wp_bind (h.call hc hg hE.stable (fun t _ ht hinv => ?_) fun t _ ht hinv => ?_)
  · exact wp_ret stable_wp (hok t ht hinv)
  · exact hE.of_fallen _ t (ht.fallen hinv) hinv

/-- The rule for commits outside the window. -/
theorem commit' (h : At j job r F s) (hE : Catches site j job E) (w : RunWrite)
    (hw : ∀ n, (Write.run job.runId w).aborted n = none)
    (hg : ∀ t, At j job r F t → Inv t → RunGuard .body t job.runId r w) {k : Unit → Act α}
    (hok : ∀ t clock, At j job (w.apply clock r) (Saved job.runId w r (w.apply clock r) F) t →
      Inv t → (served site).wp (k ()) Q E t) :
    (served site).wp ((Act.commit' (.run job.runId w)).bind k) Q E s := by
  refine h.calmly.toHeld.commit' hE w hw (fun t ht hinv => ⟨hg t ht.of_calmly hinv, ?_⟩)
    fun t clock ht hinv => hok t clock (ht.mono ?_) hinv
  · intro id hid
    simp [ht.outside.2 id] at hid
  · rintro _ _ ⟨log₀, before, after, hF, hrest⟩
    exact ⟨log₀, before, after, hF.1, hrest⟩

/-- The rule for commits about jobs, outside the window. -/
theorem region (h : At j job r F s) (hE : Catches site j job E) (hw : ∀ n, w.aborted n = none)
    (hconf : w.Confined job.runId) (hg : ∀ t, At j job r F t → Inv t → WriteGuard .body t w)
    {k : State → Act α} (hok : ∀ t n, At j job r F t → Inv t → Inv ((t.tick n).commit w none).2 →
      (served site).wp (k (w.apply (t.tick n).clock t.mem)) Q E ((t.tick n).commit w none).2) :
    (served site).wp ((Act.commit w).bind k) Q E s := by
  refine h.calmly.toHeld.region hw hconf (fun t ht hinv => ⟨hg t ht.of_calmly hinv, ?_⟩) hE.stable
    (fun t n ht => hok t n ht.of_calmly) fun t _ ht hinv => hE.of_fallen _ t ht hinv
  intro id hid
  simp [ht.outside.2 id] at hid

/-- When the job is no longer running, the worker is free. -/
theorem loop_of_commit (h : At j job r F s) (hinv : Inv s) {n : ℕ}
    (hj : ∀ x, (w.apply (s.tick n).clock s.mem).jobs[j]? = some x → x.state ≠ .running) :
    Loop ((s.tick n).commit w none).2 where
  unowned i x hx hrun := by
    obtain ⟨_, hc⟩ := h.mem
    obtain ⟨_, hy, hye⟩ := Write.job_of_apply hx
    have hp : x.pending = true := by simp [Job.pending, hrun]
    obtain rfl := hinv.mem.one_pending hy hc ((hye.eq_of_pending hp).1 ▸ hp)
      (by simp [Job.pending, h.running])
    exact hj x hx hrun
  calm _ := rfl
  coverage _ old hold := ⟨old, hold, rfl⟩

/-- The region that ends the job. -/
theorem ends (h : At j job r F s) (hE : Catches site j job E) (hw : ∀ n, w.aborted n = none)
    (hconf : w.Confined job.runId) (hends : ∀ x, w.ends j x = true)
    (hg : ∀ t, At j job r F t → Inv t → WriteGuard .body t w) :
    (served site).wp (Act.commit' w) (fun _ => Loop) E s := by
  refine h.region hE hw hconf hg fun t n ht hinv hu => wp_ret Loop.stable ?_
  refine ht.loop_of_commit hinv fun x hx hrun => ?_
  obtain ⟨_, _, hye⟩ := Write.job_of_apply hx
  have := (hye.eq_of_pending (by simp [Job.pending, hrun])).2
  simp [hends] at this

/-- A call without a guard. -/
theorem free (h : At j job r F s) (hE : Catches site j job E) (hc : c.free = true)
    {k : Reply → Act α}
    (hok : ∀ t reply, At j job r (Called c none F) t → Inv t → (served site).wp (k reply) Q E t) :
    (served site).wp ((Act.call c).bind k) Q E s :=
  h.call (c.free_ne_arm hc) (fun t _ _ => c.free_guard hc t) hE.stable hok
    fun t _ ht hinv => hE.of_fallen _ t (ht.fallen hinv) hinv

/-- A call without a guard whose result nobody uses. -/
theorem free' (h : At j job r F s) (hE : Catches site j job E) (hc : c.free = true)
    {k : Unit → Act α}
    (hok : ∀ t, At j job r (Called c none F) t → Inv t → (served site).wp (k ()) Q E t) :
    (served site).wp ((Act.call' c).bind k) Q E s :=
  h.call' hE (c.free_ne_arm hc) (fun t _ _ => c.free_guard hc t) hok

/-- A call whose failure is swallowed. -/
theorem attempt (h : At j job r F s) (hc : c.free = true) {k : Bool → Act α}
    (hok : ∀ t b error, At j job r (Called c error F) t → Inv t → (served site).wp (k b) Q E t) :
    (served site).wp ((Act.succeeds (Act.call' c)).bind k) Q E s := by
  refine wp_bind (wp_handle (wp_bind (h.call (c.free_ne_arm hc)
    (fun t _ _ => c.free_guard hc t) (fun _ => stable_wp)
    (fun t _ ht hinv => ?_) fun t _ ht hinv => ?_)))
  · exact wp_ret stable_wp (wp_ret stable_wp (hok t true none ht hinv))
  · exact wp_ret stable_wp (hok t false _ ht hinv)

end At
end Graphlab.Runtime
