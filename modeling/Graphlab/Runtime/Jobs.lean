import Graphlab.Runtime.Teardown

/-!
# Verifying the operations of `execute`

## Main results

* `arm_wp` — the captures of a new epoch are committed, then armed, then recorded.
* `executeStart_wp`, `executeStop_wp`, `executeDestroy_wp` — the operations, each from
  where its job is taken to where the worker is free again.
-/

namespace Graphlab.Runtime

open Lib Lib.Discipline

variable {site : Site} {j : JobId} {job : Job} {r : Run} {F : World → List Event → Prop}
  {s : Shared} {E : Failure → Shared → Prop}

/-! ## Histories -/

theorem Current.of_cons {e : Event} {log : List Event} (h : Current j (e :: log))
    (he : ∀ i, e ≠ .taken i) : Current j log := by
  obtain ⟨since, before, hlog, hsince⟩ := h
  cases since with
  | nil => exact absurd (List.cons.inj hlog).1 (he j)
  | cons x since =>
    obtain ⟨rfl, rfl⟩ := List.cons.inj hlog
    exact ⟨since, before, rfl, fun y hy => hsince y (List.mem_cons_of_mem _ hy)⟩

namespace After

variable {id : RunId} {p : Event → List Event → Prop} {e : Event} {log : List Event}

theorem here (h : p e log) : After id p (e :: log) := ⟨[], e, log, rfl, by simp, h⟩

theorem cons (h : After id p log) (he : e.breaks id = false) : After id p (e :: log) := by
  obtain ⟨since, x, before, rfl, hsince, hp⟩ := h
  exact ⟨e :: since, x, before, rfl, List.forall_mem_cons.2 ⟨he, hsince⟩, hp⟩

end After

/-! ## Arming -/

/-- No worker of the run is live, and no epoch beyond its current one was armed. -/
def Retired (r : Run) (world : World) (log : List Event) : Prop :=
  (∀ x, (r.id, x) ∉ world.workers) ∧
  ∀ (old : Run) (e : Option String), .called (.captureControl old .arm) e ∈ log → old.id = r.id →
    old.captureEpoch ≤ r.captureEpoch

theorem At.retired (h : At j job r F s) (hinv : Inv s) (hw : NoWorkers s job.runId) :
    At j job r (Retired r) s := by
  have hid := h.run_id hinv
  refine { h with outside := ⟨by rwa [hid], fun old e hold ho => ?_⟩ }
  obtain ⟨_, hr', hle⟩ := hinv.mem.epochs hold
  rw [ho, hid, h.run] at hr'
  exact (Option.some.inj hr') ▸ hle

/-- What `arm` leaves: a recording run is armed, any other as it was. -/
structure ArmedFrom (r run : Run) : Prop where
  topology : run.topology = r.topology
  state : run.state = .armed ∨ run.recording = false ∧ run.state = r.state
  coverage : run.recording = true → run.captureCoverage = .armed

/-- A descriptor of `capture::plan` carries the epoch of the run. -/
theorem capturePlan_epoch {run : Run} {ids : List String} {c : Capture}
    (h : c ∈ capturePlan run ids) : c.epoch = run.captureEpoch := by
  simp only [capturePlan, List.mem_mapIdx] at h
  obtain ⟨_, _, rfl⟩ := h
  rfl

/-- What is known when `arm` has opened the epoch of `r₁`. -/
abbrev Opened (id : RunId) (r r₁ : Run) : World → List Event → Prop :=
  Saved id .nextEpoch r r₁ (Retired r)

/-- What is known when `arm` has planned the captures of `r₂`. -/
abbrev Intended (id : RunId) (r r₁ r₂ : Run) : World → List Event → Prop :=
  Saved id (.planned r₂.captures) r₁ r₂ (Called (.capturePlan r₁) none (Opened id r r₁))

theorem Intended.planned {id : RunId} {ids : List String} {clock clock' : Clock} {r₁ r₂ : Run}
    {w : World} {log : List Event} (hid : r.id = id) (h₁ : r₁ = RunWrite.apply clock r .nextEpoch)
    (h₂ : r₂ = RunWrite.apply clock' r₁ (.planned (capturePlan r₁ ids)))
    (h : Intended id r r₁ r₂ w log) :
    Planned r₂ log ∧ ∀ (old : Run) (e : Option String),
      .called (.captureControl old .arm) e ∈ log → old.id = r₂.id →
        old.captureEpoch < r₂.captureEpoch := by
  obtain ⟨log₂, b₂, a₂, ⟨w₁, log₁, out, ⟨log₀, b₁, a₁, hret, hb₁, ha₁, rfl⟩, -, -, rfl⟩, hb₂, ha₂,
    rfl⟩ := h
  subst h₁ h₂ hid
  refine ⟨⟨_, r, b₁, a₁, b₂, a₂, log₀, rfl, hb₁, rfl, ⟨_, ha₁, rfl⟩, ⟨_, ha₂, rfl, rfl⟩,
    fun c hc => capturePlan_epoch hc⟩, fun old e hold ho => ?_⟩
  have hle : old.captureEpoch ≤ r.captureEpoch := hret.2 old e (by simpa using hold) ho
  exact Nat.lt_succ_of_le hle

/-- The `arm` lambda: the next epoch is opened and planned on disk before its workers are
armed, and they are armed before that is recorded. -/
theorem arm_wp (hE : Catches site j job E) (hstate : r.state = .preparing ∨ r.state = .stopped)
    (h : At j job r F s) :
    (served site).wp (arm j r.recording r)
      (fun run t => At j job run (fun _ log => run.recording = true → Armed j job.runId log) t ∧
        ArmedFrom r run) E s := by
  unfold arm
  cases hrec : r.recording with
  | false =>
    refine wp_ret (.and At.stable (.const _)) ⟨h.mono fun _ _ _ hr => ?_, rfl, ?_, ?_⟩
    · simp [hrec] at hr
    · exact .inr ⟨hrec, rfl⟩
    · simp [hrec]
  | true =>
    simp only [Bool.not_true, Bool.false_eq_true, if_false, Prog.bind_eq]
    refine h.snapshot fun t c ht hinv => ?_
    refine wp_when_join (P := At j job r (Retired r)) hinv (fun _ => ?_) (fun hnone => ?_)
      fun t ht hinv => ?_
    · rw [← Prog.bind_ret (Act.call' _)]
      exact ht.free' hE (by rfl) fun t ht hinv =>
        wp_ret At.stable (ht.retired hinv (ht.noWorkers hinv))
    · refine ht.retired hinv fun x hx => ?_
      obtain ⟨_, hr', c, hc, -⟩ := hinv.mem.workers hx
      cases ht.run.symm.trans hr'
      simp [List.isEmpty_iff.1 (by simpa using hnone)] at hc
    have hid := ht.run_id hinv
    rw [hid]
    -- The next epoch.
    refine ht.commit' hE .nextEpoch (fun _ => rfl) (fun t ht _ => ?_) fun t clock ht hinv => ?_
    · exact ⟨hid ▸ ht.outside.1, ht.journal_run⟩
    generalize h₁ : RunWrite.apply clock r .nextEpoch = r₁ at ht
    have hid₁ := ht.run_id hinv
    refine ht.snapshot fun t c ht hinv => ht.free hE (by rfl) fun t reply ht hinv => ?_
    rw [hid₁]
    -- Its captures.
    refine ht.commit' hE _ (fun _ => rfl) (fun t ht _ => ?_) fun t clock' ht hinv => ?_
    · obtain ⟨w₀, log₁, out, ⟨log₀, b, a, hret, -⟩, -, hw, -⟩ := ht.outside
      exact ⟨by rw [NoWorkers, hw]; exact hid ▸ hret.1, ht.journal_run, by rw [← h₁]; rfl⟩
    generalize h₂ : RunWrite.apply clock' r₁ (.planned (capturePlan r₁ reply.captureIds)) = r₂
      at ht
    have hcaptures : r₂.captures = capturePlan r₁ reply.captureIds := by rw [← h₂]; rfl
    have hrec₂ : r₂.recording = true := by rw [← h₂, ← h₁]; exact hrec
    have hstate₂ : r₂.state = r.state := by rw [← h₂, ← h₁]; rfl
    have hplan : At j job r₂ (Intended job.runId r r₁ r₂) t := by rw [Intended, hcaptures]; exact ht
    have hid₂ := hplan.run_id hinv
    refine hplan.snapshot fun t c ht hinv => ?_
    -- Arming.
    refine ht.call_held (fun run hrun => ?_) (fun t ht _ => ?_) hE.stable
      (fun t reply ht hinv => ?_) fun t _ ht hinv => hE.of_fallen _ t (ht.fallen hinv) hinv
    · cases hrun
      exact ⟨hid₂, hrec₂⟩
    · obtain ⟨hp, hlt⟩ := ht.outside.planned hid h₁.symm h₂.symm
      exact ⟨hid₂ ▸ ht.run, hid₂ ▸ ht.journal_run, hrec₂, hp, hlt⟩
    rw [hid₂]
    refine ht.commit' hE _ (fun _ => rfl) (fun t ht _ => ?_) fun t clock'' ht hinv => ?_
    · obtain ⟨c, ho⟩ := ht.owns
      obtain ⟨w₀, log₀, out, hF, -, -, hlog⟩ := ht.outside
      refine ⟨⟨⟨j, _, ho, rfl⟩, hstate₂ ▸ hstate, r₂, log₀, hlog, hid₂, rfl, ?_⟩, ?_⟩
      · exact (hF.planned hid h₁.symm h₂.symm).1
      · exact fun id harm => ((ht.window id harm).1).symm
    refine ht.snapshot fun t c ht hinv => wp_ret (.and At.stable (.const _)) ?_
    refine ⟨{ ht with outside := fun _ => ?_ }, ?_, .inl rfl, fun _ => rfl⟩
    · obtain ⟨_, _, _, ⟨_, _, _, hF, -, -, rfl⟩, -, -, hlog⟩ := ht.outside
      have hcurrent : Current j t.log := ht.current
      rw [hlog] at hcurrent ⊢
      refine .cons (.here ⟨r₂, rfl, hid₂, (hF.planned hid h₁.symm h₂.symm).1, ?_⟩) rfl
      exact (hcurrent.of_cons (by simp)).of_cons (by simp)
    · show r₂.topology = r.topology
      rw [← h₂, ← h₁]; rfl

/-! ## Start -/

/-- The resource loop of a start: an entry is committed before its resource is made. -/
theorem prepareResources_wp (hE : Catches site j job E) (cancel : Bool) (list : List Resource)
    (h : At j job r F s) :
    (served site).wp (prepareResources j job.runId cancel list)
      (fun _ t => ∃ r', At j job r' Anything t ∧ SameRun r r') E s := by
  induction list generalizing r F s cancel with
  | nil => exact wp_ret (.exists fun _ => .and At.stable (.const _)) ⟨r, h.anything, .refl r⟩
  | cons resource rest ih =>
    cases cancel with
    | true => exact wp_ret (.exists fun _ => .and At.stable (.const _)) ⟨r, h.anything, .refl r⟩
    | false =>
      refine h.commit' hE (.intent resource) (fun _ => rfl) (fun _ _ _ => trivial)
        fun t clock ht hinv => ?_
      refine ht.snapshot fun t c ht hinv => ?_
      refine ht.call (by simp) (fun t ht hinv => ?_) hE.stable (fun t reply ht hinv => ?_)
        fun t _ ht hinv => hE.of_fallen _ t (ht.fallen hinv) hinv
      · have hholds : ∀ d : State, d.runs[job.runId]? =
            some (RunWrite.apply clock r (.intent resource)) →
            Holds d (RunWrite.apply clock r (.intent resource)).id resource.key := by
          intro d hd
          rw [ht.run_id hinv]
          exact ⟨_, hd, { resource with state := .intent }, by simp [RunWrite.apply], rfl,
            by simp⟩
        exact ⟨hholds _ ht.run, hholds _ ht.journal_run⟩
      · refine ht.commit' hE (.prepared reply.identity) (fun _ => rfl) (fun _ _ _ => trivial)
          fun t clock' ht hinv => ?_
        refine ht.cancelled hE fun t cancel ht hinv => ?_
        refine wp_mono ?_ (fun _ _ _ h => h) (ih cancel ht)
        rintro _ u _ ⟨r', hat, hsame⟩
        exact ⟨r', hat, hsame.state, hsame.topology⟩

/-- Where a start stands before its run is ready. -/
structure Starting (r r' : Run) : Prop where
  topology : r'.topology = r.topology
  state : r'.state = .preparing ∨ r'.state = .armed ∨ r'.state = .converging

/-- A start that goes on has converged, with its captures armed. -/
structure Converged (r' : Run) : Prop where
  state : r'.state = .converging
  coverage : r'.recording = true → r'.captureCoverage = .armed

/-- The barrier of a start up to the activation of its workloads. -/
theorem converge_wp (hE : Catches site j job E) (hop : job.operation = .start) (cancel : Bool)
    (hstate : r.state = .preparing) (h : At j job r F s) :
    (served site).wp (converge j r.recording cancel)
      (fun b t => ∃ r', At j job r' (fun _ log => b = false → r'.recording = true →
          Activated j job.runId log) t ∧ Starting r r' ∧ (b = false → Converged r')) E s := by
  cases cancel with
  | true =>
    refine wp_ret (.exists fun _ => .and At.stable (.const _)) ⟨r, h.mono ?_, ⟨rfl, .inl hstate⟩, ?_⟩
    · simp
    · simp
  | false =>
    simp only [converge, Prog.bind_eq]
    refine h.snapshot fun t c ht hinv => ?_
    refine wp_bind (wp_mono ?_ (fun _ _ _ h => h) (arm_wp hE (.inl hstate) ht))
    rintro run t hinv ⟨ht, harmed⟩
    rw [ht.run_id hinv]
    refine ht.commit' hE (.state .converging) (fun _ => rfl) (fun t ht _ => ?_)
      fun t clock ht hinv => ?_
    · obtain ⟨_, ho⟩ := ht.owns
      refine ⟨j, _, ho, rfl, hop, ?_⟩
      rcases harmed.state with h | ⟨-, h⟩
      · exact .inr h
      · exact .inl (h.trans hstate)
    have hid : run.id = job.runId := ht.run_id hinv
    refine ht.free' hE (by rfl) fun t ht hinv => ?_
    rw [← Prog.bind_ret (Act.cancelled j)]
    refine ht.cancelled hE fun t b ht hinv => ?_
    refine wp_ret (.exists fun _ => .and At.stable (.const _)) ⟨_, ht.mono ?_, ?_, fun _ => ?_⟩
    · rintro w log ⟨w₀, log₁, out, ⟨log₀, before, after, harm, -, -, rfl⟩, -, -, rfl⟩ - hrec
      exact .here ⟨run, rfl, hid, (harm hrec).cons rfl⟩
    · exact ⟨harmed.topology, .inr (.inr rfl)⟩
    · exact ⟨rfl, harmed.coverage⟩

/-- The release of the gates of a start: the barrier is complete. -/
theorem releaseGates_wp (hE : Catches site j job E) (cancel : Bool)
    (h : At j job r (fun _ log => cancel = false → r.recording = true →
      Activated j job.runId log) s) (hconv : cancel = false → Converged r) :
    (served site).wp (releaseGates j r.recording cancel)
      (fun b t => At j job r Anything t ∧ (b = false → Converged r)) E s := by
  cases cancel with
  | true => exact wp_ret (.and At.stable (.const _)) ⟨h.anything, by simp⟩
  | false =>
    simp only [releaseGates, Prog.bind_eq]
    refine h.snapshot fun t c ht hinv => ?_
    have hid := ht.run_id hinv
    refine wp_when_join (P := At j job r fun _ log => r.recording = true →
      Barrier j job.runId log) hinv (fun hrec => ?_) (fun hrec => ht.mono ?_) fun t ht hinv => ?_
    · rw [← Prog.bind_ret (Act.call' _)]
      refine ht.free' hE (by rfl) fun t ht hinv => wp_ret At.stable (ht.mono ?_)
      rintro w log ⟨w₀, log₀, out, hact, -, -, rfl⟩ -
      exact .here ⟨r, rfl, hid, hact rfl hrec⟩
    · simp [hrec]
    refine ht.call' hE (by simp) (fun t ht hinv => ?_) fun t ht hinv => ?_
    · obtain ⟨_, ho⟩ := ht.owns
      exact ⟨j, _, ho, hid.symm, .inl (hconv rfl).state, hid ▸ ht.outside⟩
    · rw [← Prog.bind_ret (Act.cancelled j)]
      refine ht.cancelled hE fun t b ht hinv => ?_
      exact wp_ret (.and At.stable (.const _)) ⟨ht.anything, fun _ => hconv rfl⟩

/-! ## Completion -/

theorem confined_finished {last : Run} (hid : last.id = job.runId) (observation : Health) :
    (Write.finished j last observation).Confined job.runId := by
  intro clock d i r r' hne he
  cases he with
  | same => rfl
  | finished _ _ _ h => exact absurd (h.symm.trans hid) hne

theorem confined_startCancelled (id : RunId) : (Write.startCancelled j).Confined id := by
  intro clock d i r r' hne he
  cases he
  rfl

/-- The end of `execute`. -/
theorem complete_wp (hE : Catches site j job E) (hc : Completes job.operation r)
    (h : At j job r F s) : (served site).wp (complete j) (fun _ => Loop) E s := by
  refine h.snapshot fun t c ht hinv => ?_
  have hid := ht.run_id hinv
  refine ht.free hE (by rfl) fun t reply ht hinv => ?_
  refine ht.ends hE (fun _ => rfl) (confined_finished hid _) (fun _ => by simp [Write.ends])
    fun t ht hinv => ?_
  obtain ⟨_, ho⟩ := ht.owns
  exact ⟨_, ho, hid.symm, hc⟩

/-- The end of a cancelled start. -/
theorem compensate_wp (hE : Catches site j job E) (hop : job.operation = .start)
    (hstate : r.state = .preparing ∨ r.state = .armed ∨ r.state = .converging)
    (h : At j job r F s) : (served site).wp (compensate j job.runId) (fun _ => Loop) E s := by
  refine h.commit' hE (.state .compensating) (fun _ => rfl) (fun t ht _ => ?_)
    fun t clock ht hinv => ?_
  · obtain ⟨c, ho⟩ := ht.owns
    exact ⟨j, _, ho, rfl, hop, hstate⟩
  refine ht.snapshot fun t c ht hinv => ht.attempt (by rfl) fun t _ _ ht hinv => ?_
  refine wp_bind (wp_mono ?_ (fun _ _ _ h => h) (cleanup_wp hE ht))
  rintro _ t hinv ⟨r', ht, hsame, htorn⟩
  refine ht.commit' hE (.state .destroyed) (fun _ => rfl) (fun t ht _ => ?_)
    fun t clock' ht hinv => ?_
  · obtain ⟨c, ho⟩ := ht.owns
    exact ⟨j, _, ho, rfl, .inl ⟨hop, hsame.state⟩, htorn⟩
  refine ht.ends hE (fun _ => rfl) (confined_startCancelled _) (fun _ => by simp [Write.ends])
    fun t ht hinv => ?_
  obtain ⟨_, ho⟩ := ht.owns
  exact ⟨_, _, ho, hop, rfl, htorn.resources, htorn.faults, htorn.captures⟩

/-! ## Operations -/

theorem Completes.ready {operation : Operation} (hop : operation ≠ .destroy ∧ operation ≠ .recover)
    (hstate : r.state = .ready) (hcov : r.recording = true → r.captureCoverage = .armed) :
    Completes operation r := by
  refine ⟨fun hrec => by simpa [hstate] using hcov hrec, fun h => ?_⟩
  rcases h with h | h
  · exact absurd h hop.1
  · exact absurd h hop.2

/-- `execute` for a start. -/
theorem executeStart_wp (hE : Catches site j job E) (hop : job.operation = .start)
    (hstate : r.state = .preparing) (hid : r.id = job.runId) (h : At j job r F s)
    (hinv : Inv s) : (served site).wp (executeStart j r) (fun _ => Loop) E s := by
  unfold executeStart
  simp only [Prog.bind_eq, hid]
  refine wp_when_join (P := At j job r Anything) hinv (fun _ => ?_) (fun _ => h.anything)
    fun t ht hinv => ?_
  · rw [← Prog.bind_ret (Act.call' _)]
    exact h.free' hE (by rfl) fun t ht hinv => wp_ret At.stable ht.anything
  refine ht.free' hE (by rfl) fun t ht hinv => ht.cancelled hE fun t cancel ht hinv => ?_
  refine wp_bind (wp_mono ?_ (fun _ _ _ h => h) (prepareResources_wp hE cancel (resources r) ht))
  rintro cancel t hinv ⟨r₁, ht, hsame⟩
  rw [← hsame.recording]
  refine wp_bind (wp_mono ?_ (fun _ _ _ h => h)
    (converge_wp hE hop cancel (hsame.state.trans hstate) ht))
  rintro cancel t hinv ⟨r₂, ht, hstarting, hconv⟩
  have hrec : r₁.recording = r₂.recording := by simp only [Run.recording, hstarting.topology]
  rw [hrec]
  refine wp_bind (wp_mono ?_ (fun _ _ _ h => h) (releaseGates_wp hE cancel ht hconv))
  rintro cancel t hinv ⟨ht, hconv⟩
  cases cancel with
  | true => exact compensate_wp hE hop hstarting.state ht
  | false =>
    refine ht.commit' hE (.state .ready) (fun _ => rfl) (fun t ht _ => ?_)
      fun t clock ht hinv => ?_
    · obtain ⟨_, ho⟩ := ht.owns
      exact ⟨j, _, ho, rfl, .inl ⟨hop, (hconv rfl).state⟩⟩
    · refine complete_wp hE (.ready (by simp [hop]) rfl fun hrec => ?_) ht
      exact (hconv rfl).coverage hrec

/-- `execute` for a stop. -/
theorem executeStop_wp (hE : Catches site j job E) (hop : job.operation = .stop)
    (hid : r.id = job.runId) (h : At j job r F s) :
    (served site).wp (executeStop j r) (fun _ => Loop) E s := by
  unfold executeStop
  simp only [Prog.bind_eq, hid]
  refine h.free' hE (by rfl) fun t ht hinv => ?_
  refine wp_when_join (P := fun t => ∃ r', At j job r' Anything t ∧
    (r'.recording = true → r'.captureCoverage.isClosed = true)) hinv (fun hrec => ?_)
    (fun hrec => ⟨r, ht.anything, by simp [hrec]⟩) fun t ht hinv => ?_
  · refine wp_mono ?_ (fun _ _ _ h => h) (closeCaptures_wp hE ht)
    rintro _ t - ⟨r', ht, -, -, -, hclosed⟩
    exact ⟨r', ht, fun _ => hclosed hrec⟩
  obtain ⟨_, ht, hclosed⟩ := ht
  refine ht.commit' hE (.state .stopped) (fun _ => rfl) (fun t ht _ => ?_) fun t clock ht hinv => ?_
  · obtain ⟨_, ho⟩ := ht.owns
    exact ⟨j, _, ho, rfl, hop⟩
  · refine complete_wp hE ⟨fun hrec => ?_, by simp [hop]⟩ ht
    simpa [RunWrite.apply] using hclosed hrec

/-- `execute` for a destroy or a recover. -/
theorem executeDestroy_wp (hE : Catches site j job E)
    (hop : job.operation = .destroy ∨ job.operation = .recover) (hid : r.id = job.runId)
    (h : At j job r F s) : (served site).wp (executeDestroy j r) (fun _ => Loop) E s := by
  unfold executeDestroy
  simp only [Prog.bind_eq, hid]
  refine h.commit' hE (.state .destroying) (fun _ => rfl) (fun t ht _ => ?_)
    fun t clock ht hinv => ?_
  · obtain ⟨c, ho⟩ := ht.owns
    exact ⟨j, _, ho, rfl, hop⟩
  refine ht.attempt (by rfl) fun t _ _ ht hinv => ?_
  refine wp_bind (wp_mono ?_ (fun _ _ _ h => h) (cleanup_wp hE ht))
  rintro _ t hinv ⟨r', ht, hsame, htorn⟩
  refine ht.commit' hE (.state .destroyed) (fun _ => rfl) (fun t ht _ => ?_)
    fun t clock' ht hinv => ?_
  · obtain ⟨_, ho⟩ := ht.owns
    exact ⟨j, _, ho, rfl, .inr ⟨hop, hsame.state⟩, htorn⟩
  · have htorn' : (RunWrite.apply clock' r' (.state .destroyed)).TornDown :=
      ⟨htorn.resources, htorn.faults, htorn.captures⟩
    exact complete_wp hE ⟨fun hrec => htorn'.captures hrec, fun _ => ⟨rfl, htorn'⟩⟩ ht

end Graphlab.Runtime
