import Graphlab.Runtime.Rules

/-!
# Verifying `m5_monitor`

`m5_monitor` runs between jobs and twice inside a resume.  `Watching` says what its
verification needs of the surroundings, and `m5Monitor_wp` is proved once from it; the
two places are two instances.

It works on a snapshot while requests are admitted.  What makes the snapshot good
enough is `Tracked`: a fault that was listed is still there, as it was listed, since
requests only add faults and each one is handled once.

## Main results

* `m5FaultFailure_wp`, `expireFaults_wp`, `collect_wp` — the parts.
* `m5Monitor_wp` — the whole, in any setting that is `Watching`.
* `watching_loop` — the setting between jobs.
-/

namespace Graphlab.Runtime

open Std (TreeMap)
open Lib Lib.Discipline

variable {site : Site} {s t : Shared}

/-- The regions of `m5_monitor`. -/
def RunWrite.mild : RunWrite → Bool
  | .faultExpiring _ => true
  | .faultExpired _ => true
  | .faultFailure _ _ => true
  | .faultQuiescence _ _ => true
  | .health _ _ => true
  | .samples _ _ => true
  | _ => false

/-- The run needs reconciliation. -/
def Reconciling (d : State) (id : RunId) : Prop :=
  ∃ r, d.runs[id]? = some r ∧ r.state = .reconciling

/-- A setting in which `m5_monitor` runs.  `P synced debt` is what is known: whether
memory is committed, and the run on which a failure is still to be recorded. -/
structure Watching (site : Site) (P : Bool → Option RunId → Shared → Prop) : Prop where
  stable : ∀ b d, (served site).Stable (P b d)
  calm : ∀ {b d s}, P b d s → Calm s.log
  coverage : ∀ {b d s}, P b d s → ∀ id, SameCoverage s id
  resumes : ∀ {b d s}, P b d s → Inv s → ∀ (j : JobId) (job : Job), s.mem.jobs[j]? = some job →
    job.state = .running → job.operation = .resume
  owes : ∀ {b s} (d : Option RunId), P b none s → P b d s
  tick : ∀ {b d s} (n : ℕ), P b d s → P b d (s.tick n)
  /-- A call may fail on a run whose failure is to be recorded, or has been. -/
  call : ∀ {b d s c} (out : Outcome), P b d s → c.free = true →
    (out.error ≠ none → ∀ id, c.concerns id = true → d = some id ∨ Reconciling s.mem id) →
    P b d (perform (.call c) out s).2
  /-- A commit settles a failure by recording it. -/
  saved : ∀ {b d s id w} (n : ℕ), P b d s → Inv s → w.mild = true →
    (d = none ∨ d = some id ∧ ∃ fid error, w = .faultFailure fid error) →
    P true none ((s.tick n).commit (.run id w) none).2
  failed : ∀ {b d s id w} (n : ℕ) (code : String), P b d s → Inv s → w.mild = true →
    (d = none ∨ d = some id) → P false (some id) ((s.tick n).commit (.run id w) (some code)).2
  updated : ∀ {b d s id w} (n : ℕ), P b d s → Inv s → w.mild = true →
    P false d { s.tick n with mem := (Write.run id w).apply (s.tick n).clock s.mem }

/-! ## Faults of a snapshot -/

/-- The run is not destroyed and has the fault as it was listed. -/
def Tracked (d : State) (id : RunId) (fid : FaultId) (f : Fault) : Prop :=
  ∃ r, d.runs[id]? = some r ∧ r.state ≠ .destroyed ∧ r.faults[fid]? = some f

variable {w : RunWrite}

namespace Tracked

variable {d : State} {id i : RunId} {fid : FaultId} {f : Fault}

theorem serve (h : Tracked s.mem id fid f) (hst : Serve s t) : Tracked t.mem id fid f := by
  obtain ⟨_, hr, hstate, hf⟩ := h
  obtain ⟨_, hr', _, _, _, _, _, rfl, hfaults⟩ := hst.run hr
  exact ⟨_, hr', hstate, hfaults fid f hf⟩

/-- What a region of `m5_monitor` makes of a listed fault. -/
theorem write (h : Tracked d id fid f) (hw : w.mild = true) (clock : Clock) :
    Tracked ((Write.run i w).apply clock d) id fid (if i = id then w.onFault fid f else f) := by
  obtain ⟨_, hr, hstate, hf⟩ := h
  refine ⟨_, Write.apply_run_some hr w clock, ?_, ?_⟩
  · split
    · rw [RunWrite.apply_state]
      cases w <;> simp_all [RunWrite.mild]
    · exact hstate
  · split
    · rw [RunWrite.apply_fault, hf]; rfl
    · exact hf

end Tracked

/-- The listed faults are as they were. -/
def Tracks (T : RunId → FaultId → Fault → Prop) (d : State) : Prop :=
  ∀ ⦃id : RunId⦄ ⦃fid : FaultId⦄ ⦃f : Fault⦄, T id fid f → Tracked d id fid f

namespace Tracks

variable {T : RunId → FaultId → Fault → Prop}

theorem stable : (served site).Stable fun s => Tracks T s.mem :=
  stable_of_serve fun _ _ _ hst h _ _ _ hT => (h hT).serve hst

theorem mono {T' : RunId → FaultId → Fault → Prop} {d : State} (h : Tracks T d)
    (hT : ∀ id fid f, T' id fid f → T id fid f) : Tracks T' d := fun _ _ _ h' => h (hT _ _ _ h')

/-- A region of `m5_monitor` that sets none of the listed faults. -/
theorem write {d : State} (h : Tracks T d) {i : RunId} (hw : w.mild = true)
    (hset : ∀ {fid f}, T i fid f → w.onFault fid f = f) (clock : Clock) :
    Tracks T ((Write.run i w).apply clock d) := by
  intro id fid f hT
  have htracked := (h hT).write (i := i) hw clock
  by_cases hi : i = id
  · subst hi
    simpa [hset hT] using htracked
  · simpa [hi] using htracked

end Tracks

/-! ## Rules -/

namespace Watching

variable {P : Bool → Option RunId → Shared → Prop} {b : Bool} {d : Option RunId} {α : Type}
  {Q : α → Shared → Prop} {E : Failure → Shared → Prop} {A : Shared → Prop}

/-- What is left when `m5_monitor` is given up. -/
def Gone (P : Bool → Option RunId → Shared → Prop) (_ : Failure) (s : Shared) : Prop :=
  ∃ b d, P b d s

theorem stable_gone (hw : Watching site P) (e : Failure) : (served site).Stable (Gone P e) :=
  .exists fun b => .exists fun d => hw.stable b d

/-- A call.  When it fails, the run it is about is owed a record. -/
theorem wp_call (hw : Watching site P) (hA : (served site).Stable A) (h : P b none s) (hs : A s)
    {c : Call} (hc : c.free = true) {k : Reply → Act α} (hE : ∀ e, (served site).Stable (E e))
    (howed : ∀ t, A t → Inv t → ∀ id, c.concerns id = true → d = some id ∨ Reconciling t.mem id)
    (hok : ∀ t out, A t → Inv t → out.error = none → P b none (perform (.call c) out t).2 →
      Inv (perform (.call c) out t).2 →
      (served site).wp (k out.reply) Q E (perform (.call c) out t).2)
    (herr : ∀ t out code, A t → Inv t → P b d (perform (.call c) out t).2 →
      Inv (perform (.call c) out t).2 → E { code } (perform (.call c) out t).2) :
    (served site).wp ((Act.call c).bind k) Q E s := by
  refine Runtime.wp_call ((hw.stable b none).and hA) ⟨h, hs⟩ (fun t _ _ => c.free_guard hc t) hE
    (fun t out ⟨ht, hAt⟩ hinv herror hu => ?_) fun t out code ⟨ht, hAt⟩ hinv _ hu => ?_
  · exact hok t out hAt hinv herror (hw.call out ht hc fun h => absurd herror h) hu
  · exact herr t out code hAt hinv (hw.call out (hw.owes d ht) hc fun _ => howed t hAt hinv) hu

/-- A commit. -/
theorem wp_commit (hw : Watching site P) (hA : (served site).Stable A) (h : P b d s) (hs : A s)
    {id : RunId} (hm : w.mild = true) (ha : ∀ n, (Write.run id w).aborted n = none)
    (hd : d = none ∨ d = some id ∧ ∃ fid error, w = .faultFailure fid error) {k : State → Act α}
    (hE : ∀ e, (served site).Stable (E e))
    (hg : ∀ t r, P b d t → A t → Inv t → t.mem.runs[id]? = some r → RunGuard .body t id r w)
    (hok : ∀ t n, A t → Inv t → P true none ((t.tick n).commit (.run id w) none).2 →
      Inv ((t.tick n).commit (.run id w) none).2 →
      (served site).wp (k ((Write.run id w).apply (t.tick n).clock t.mem)) Q E
        ((t.tick n).commit (.run id w) none).2) (herr : ∀ t n code, A t → Inv t →
      P false (some id) ((t.tick n).commit (.run id w) (some code)).2 →
      Inv ((t.tick n).commit (.run id w) (some code)).2 →
      E { code } ((t.tick n).commit (.run id w) (some code)).2) :
    (served site).wp ((Act.commit (.run id w)).bind k) Q E s := by
  refine Runtime.wp_commit ha ((hw.stable b d).and hA) ⟨h, hs⟩ (fun t ⟨ht, hAt⟩ hinv => ?_) hE
    (fun t n ⟨ht, hAt⟩ hinv hu => ?_) fun t n code ⟨ht, hAt⟩ hinv hu => ?_
  · refine ⟨fun r hr => hg t r ht hAt hinv hr, fun i hi => ?_, .inl (hw.coverage ht)⟩
    simp [hw.calm ht i] at hi
  · exact hok t n hAt hinv (hw.saved n ht hinv hm hd) hu
  · exact herr t n code hAt hinv (hw.failed n code ht hinv hm (hd.imp_right And.left)) hu

theorem wp_clock (hw : Watching site P) (hA : (served site).Stable fun s => A s) (h : P b d s)
    (hs : A s) (htick : ∀ t n, A t → A (Shared.tick t n)) {k : Clock → Act α}
    (hok : ∀ t, A t → P b d t → Inv t → (served site).wp (k t.clock) Q E t) :
    (served site).wp (Act.clock.bind k) Q E s :=
  Runtime.wp_clock ((hw.stable b d).and hA) ⟨h, hs⟩
    fun t n ht => hok _ (htick t n ht.2) (hw.tick n ht.1)

end Watching

/-! ## A failed removal -/

namespace Reconciling

variable {d : State} {id : RunId}

theorem serve (h : Reconciling s.mem id) (hst : Serve s t) : Reconciling t.mem id := by
  obtain ⟨_, hr, hstate⟩ := h
  obtain ⟨_, hr', _, _, _, _, _, rfl, -⟩ := hst.run hr
  exact ⟨_, hr', hstate⟩

theorem stable : (served site).Stable fun s => Reconciling s.mem id :=
  stable_of_serve fun _ _ _ hst h => h.serve hst

end Reconciling

/-- The removal of a fault failed: it is still being removed, or the agent stops before
its place can be taken again. -/
def Failing (id : RunId) (fid : FaultId) (s : Shared) : Prop :=
  (∃ f, Tracked s.mem id fid f ∧ f.state = .removing) ∨
  (s.stopping = true ∧ ∃ r f, s.mem.runs[id]? = some r ∧ r.state ≠ .destroyed ∧
    r.faults[fid]? = some f ∧ f.state ≠ .queued ∧ r.SoleAt fid f)

namespace Failing

variable {id : RunId} {fid : FaultId}

theorem stable : (served site).Stable (Failing id fid) := by
  refine stable_of_serve fun s t _ hst h => ?_
  rcases h with ⟨f, hf, hstate⟩ | ⟨hs, h⟩
  · exact .inl ⟨f, hf.serve hst, hstate⟩
  · rw [hst.eq_of_stopping hs]
    exact .inr ⟨rfl, h⟩

theorem spec (h : Failing id fid s) (hinv : Inv s) :
    ∃ r f, s.mem.runs[id]? = some r ∧ r.state ≠ .destroyed ∧ r.faults[fid]? = some f ∧
      f.state ≠ .queued ∧ r.SoleAt fid f := by
  rcases h with ⟨f, ⟨r, hr, hdestroyed, hf⟩, hstate⟩ | ⟨-, h⟩
  · exact ⟨r, f, hr, hdestroyed, hf, by simp [hstate],
      hinv.mem.sole hr hf (by simp [hstate, FaultState.live])⟩
  · exact h

end Failing

section

variable {P : Bool → Option RunId → Shared → Prop} {b : Bool} {d : Option RunId}
  {T : RunId → FaultId → Fault → Prop} {id : RunId} {fid : FaultId}

/-- A region that sets a fault which is not listed leaves those that are. -/
theorem onFault_other {value : FaultState} (hset : w.setsFault = some (fid, value))
    (hid : ∀ f, ¬ T id fid f) {i : FaultId} {f : Fault} (hT : T id i f) : w.onFault i f = f := by
  have hi : fid ≠ i := by
    rintro rfl
    exact hid f hT
  simp [RunWrite.onFault, hset, hi]

/-- `m5_fault_failure` records the failure and tries to quiesce the run. -/
theorem m5FaultFailure_wp (hw : Watching site P) (error : String) (h : P b d s)
    (hd : d = none ∨ d = some id) (hfail : Failing id fid s) (hT : Tracks T s.mem)
    (hid : ∀ f, ¬ T id fid f) :
    (served site).wp (m5FaultFailure id fid error) (fun _ t => P true none t ∧ Tracks T t.mem)
      (Watching.Gone P) s := by
  refine hw.wp_commit (A := fun s => Failing id fid s ∧ Tracks T s.mem)
    (.and Failing.stable Tracks.stable) h ⟨hfail, hT⟩ rfl (fun _ => rfl)
    (hd.imp_right fun h => ⟨h, fid, error, rfl⟩) hw.stable_gone ?_ ?_
    fun t n code _ _ hP _ => ⟨_, _, hP⟩
  · rintro t r hP ⟨hfail, -⟩ hinv hr
    obtain ⟨_, f, hr', hdestroyed, hf, hq, hsole⟩ := hfail.spec hinv
    cases hr.symm.trans hr'
    exact ⟨hdestroyed, hw.resumes hP hinv, f, hf, .inl hq, hsole⟩
  rintro t n ⟨hfail, hT⟩ hinv hP hu
  obtain ⟨r, -, hr, -⟩ := hfail.spec hinv
  have hrun : ((Write.run id (.faultFailure fid error)).apply (t.tick n).clock t.mem).runs[id]? =
      some (RunWrite.apply (t.tick n).clock r (.faultFailure fid error)) := by
    rw [Write.apply_run_some hr, if_pos rfl]
  have hrid : r.id = id := hinv.mem.run_id hr
  have hT' : Tracks T ((Write.run id (.faultFailure fid error)).apply (t.tick n).clock t.mem) :=
    hT.write rfl (onFault_other rfl hid) _
  simp only [hrun]
  -- Whatever becomes of the attempt to quiesce, the run is recorded as reconciling.
  have hquiesced : ∀ u failure, P true none u → Tracks T u.mem →
      (served site).wp (Act.commit' (.run id (.faultQuiescence fid failure)))
        (fun _ t => P true none t ∧ Tracks T t.mem) (Watching.Gone P) u := by
    intro u failure hP hT
    refine hw.wp_commit (A := fun s => Tracks T s.mem) Tracks.stable hP hT rfl (fun _ => rfl)
      (.inl rfl) hw.stable_gone (fun _ _ _ _ _ _ => trivial) ?_ fun t n code _ _ hP _ => ⟨_, _, hP⟩
    exact fun t n hT hinv hP hu => wp_ret (.and (hw.stable _ _) Tracks.stable)
      ⟨hP, hT.write rfl (fun _ => rfl) _⟩
  refine wp_bind (wp_handle (wp_bind
    (hw.wp_call (d := none) (A := fun s => Reconciling s.mem id ∧ Tracks T s.mem)
      (.and Reconciling.stable Tracks.stable) hP ⟨⟨_, hrun, rfl⟩, hT'⟩ (by rfl)
      (fun _ => stable_wp) ?_ ?_ ?_)))
  · rintro t ⟨hrec, -⟩ - i hi
    obtain rfl : r.id = i := by simpa [Call.concerns, RunWrite.apply_id] using hi
    exact .inr (hrid ▸ hrec)
  · rintro t out ⟨-, hT⟩ - - hP -
    exact wp_ret stable_wp (wp_ret stable_wp (hquiesced _ _ hP hT))
  · rintro t out code ⟨-, hT⟩ - hP -
    exact wp_ret stable_wp (hquiesced _ _ hP hT)

/-! ## Expiry -/

/-- The faults in `list`, all of the run `id`, and those of `T`. -/
def Listed (id : RunId) (list : List (FaultId × Fault)) (T : RunId → FaultId → Fault → Prop) :
    RunId → FaultId → Fault → Prop :=
  fun i fid f => i = id ∧ (fid, f) ∈ list ∨ T i fid f

/-- The fault `fid` is being removed; those still to be looked at are as listed. -/
def Removing (id : RunId) (fid : FaultId) (T : RunId → FaultId → Fault → Prop) (s : Shared) :
    Prop :=
  (∃ f, Tracked s.mem id fid f ∧ f.state = .removing) ∧ Tracks T s.mem

namespace Removing

theorem stable : (served site).Stable (Removing id fid T) := by
  refine stable_of_serve fun s t _ hst ⟨⟨f, hf, hstate⟩, hT⟩ => ⟨⟨f, hf.serve hst, hstate⟩, ?_⟩
  exact fun _ _ _ h => (hT h).serve hst

/-- The last region of an expiry, when its `save` fails. -/
theorem failing (h : Removing id fid T s) (hinv : Inv s) (n : ℕ) (code : String) :
    Failing id fid ((s.tick n).commit (.run id (.faultExpired fid)) (some code)).2 := by
  obtain ⟨⟨f, ⟨r, hr, hdestroyed, hf⟩, hstate⟩, -⟩ := h
  refine .inr ⟨rfl, RunWrite.apply (s.tick n).clock r (.faultExpired fid),
    { f with state := .removed }, ?_, hdestroyed, ?_, by simp, ?_⟩
  · exact (Write.apply_run_some hr _ _).trans (by rw [if_pos rfl])
  · rw [RunWrite.apply_fault, hf]
    simp [RunWrite.onFault, RunWrite.setsFault]
  · intro i g hg hne hlive hedge hdirection
    rw [RunWrite.apply_fault, Option.map_eq_some_iff] at hg
    obtain ⟨g, hg, rfl⟩ := hg
    have hsame : RunWrite.onFault (.faultExpired fid) i g = g := by
      simp [RunWrite.onFault, RunWrite.setsFault, hne.symm]
    rw [hsame] at hlive hedge hdirection
    exact hinv.mem.sole hr hf (by simp [hstate, FaultState.live]) hg hne hlive hedge hdirection

end Removing

variable {run : Run}

/-- One expiry, from the region that announces it. -/
theorem expire_wp (hw : Watching site P) (hrun : run.id = id) {f : Fault} (hfid : f.id = fid)
    (hid : ∀ f, ¬ T id fid f) (h : P true none s) (hs : Removing id fid T s) :
    (served site).wp
      (tryCatch
        (do
          Act.call' (.fault run f .remove)
          Act.commit' (.run id (.faultExpired fid))
          pure false)
        fun e => do
          m5FaultFailure id fid e.code
          pure true)
      (fun _ t => P true none t ∧ Tracks T t.mem) (Watching.Gone P) s := by
  have hpost : (served site).Stable fun t => P true none t ∧ Tracks T t.mem :=
    .and (hw.stable _ _) Tracks.stable
  -- Both ways to fail lead to the record of the failure.
  have hcatch : ∀ (e : Failure) (b : Bool) (u : Shared), P b (some id) u → Failing id fid u →
      Tracks T u.mem → (served site).wp (do m5FaultFailure id fid e.code; pure true)
        (fun _ t => P true none t ∧ Tracks T t.mem) (Watching.Gone P) u := by
    intro e b u hP hfail hT
    refine wp_bind (wp_mono (fun _ _ _ h => ?_) (fun _ _ _ h => h)
      (m5FaultFailure_wp hw e.code hP (.inr rfl) hfail hT hid))
    exact wp_ret hpost h
  refine wp_handle (wp_bind (hw.wp_call (d := some id) Removing.stable h hs (by rfl)
    (fun _ => stable_wp) ?_ ?_ ?_))
  · rintro t - - i hi
    obtain rfl : run.id = i := by simpa [Call.concerns] using hi
    exact .inl (by rw [hrun])
  · rintro t out ht - herror hP -
    have hgone : (id, fid) ∉ (perform (.call (.fault run f .remove)) out t).2.world.installed := by
      simp [perform, Shared.call, Call.effect, herror, hrun, hfid]
    have hstable : (served site).Stable fun s => (id, fid) ∉ s.world.installed :=
      stable_of_serve fun _ _ _ hst h => hst.world_eq ▸ h
    refine wp_ret stable_wp (wp_bind (hw.wp_commit (.and hstable Removing.stable) hP ⟨hgone, ht⟩
      rfl (fun _ => rfl) (.inl rfl) (fun _ => stable_wp) ?_ ?_ ?_))
    · rintro t r - ⟨hgone, ⟨f, ⟨r', hr', -, hf⟩, hstate⟩, -⟩ - hr
      cases hr.symm.trans hr'
      exact ⟨hgone, f, hf, hstate⟩
    · rintro t n ⟨-, -, hT⟩ - hP -
      exact wp_ret stable_wp (wp_ret hpost ⟨hP, hT.write rfl (onFault_other rfl hid) _⟩)
    · rintro t n code ⟨-, ht⟩ hinv hP -
      exact hcatch _ _ _ hP (ht.failing hinv n code) (ht.2.write rfl (onFault_other rfl hid) _)
  · rintro t out code ht - hP -
    exact hcatch _ _ _ hP (.inl ht.1) ht.2

/-- The expiry loop over the faults of one run. -/
theorem expireFaults_wp (hw : Watching site P) (hrun : run.id = id) (hid : ∀ fid f, ¬ T id fid f)
    (state : RunState) (list : List (FaultId × Fault)) (hnodup : list.Pairwise fun a b => a.1 ≠ b.1)
    (h : P true none s) (hT : Tracks (Listed id list T) s.mem) :
    (served site).wp (expireFaults id run state list)
      (fun _ t => P true none t ∧ Tracks T t.mem) (Watching.Gone P) s := by
  induction list generalizing s state with
  | nil =>
    exact wp_ret (.and (hw.stable _ _) Tracks.stable) ⟨h, hT.mono fun _ _ _ => .inr⟩
  | cons e rest ih =>
    obtain ⟨fid, f⟩ := e
    obtain ⟨hne, hrest⟩ := List.pairwise_cons.1 hnodup
    have hnext : ∀ {d : State}, Tracks (Listed id ((fid, f) :: rest) T) d →
        Tracks (Listed id rest T) d := by
      refine fun h => h.mono fun i k g hg => ?_
      exact hg.imp_left fun h => ⟨h.1, List.mem_cons_of_mem _ h.2⟩
    have hother : ∀ g, ¬ Listed id rest T id fid g := by
      rintro g (⟨-, hmem⟩ | hg)
      · exact hne _ hmem rfl
      · exact hid fid g hg
    refine hw.wp_clock Tracks.stable h hT (fun _ _ h => h) fun t hT hP hinv => ?_
    have htracked : ∀ {d : State}, Tracks (Listed id ((fid, f) :: rest) T) d →
        Tracked d id fid f := fun h => h (.inl ⟨rfl, List.mem_cons_self ..⟩)
    have hfid : f.id = fid := by
      obtain ⟨r, hr, -, hf⟩ := htracked hT
      exact hinv.mem.fault_id hr hf
    split
    · next hexpired =>
        simp only [Bool.and_eq_true, beq_iff_eq] at hexpired
        refine wp_bind (hw.wp_commit Tracks.stable hP hT rfl (fun _ => rfl) (.inl rfl)
          hw.stable_gone ?_ ?_ fun t n code _ _ hP _ => ⟨_, _, hP⟩)
        · rintro t r - hT - hr
          obtain ⟨_, hr', -, hf⟩ := htracked hT
          cases hr.symm.trans hr'
          exact ⟨f, hf, hexpired.1⟩
        · rintro t n hT hinv hP -
          have hremoving := (htracked hT).write (i := id) (w := .faultExpiring fid) rfl
            (t.tick n).clock
          have hrem : Removing id fid (Listed id rest T)
              ((t.tick n).commit (.run id (.faultExpiring fid)) none).2 :=
            ⟨⟨_, hremoving, by simp [RunWrite.onFault, RunWrite.setsFault]⟩,
              (hnext hT).write rfl (onFault_other rfl hother) _⟩
          refine wp_ret stable_wp (wp_bind (wp_mono ?_ (fun _ _ _ h => h)
            (expire_wp hw hrun hfid hother hP hrem)))
          exact fun _ u _ h => ih _ hrest h.1 h.2
    · exact ih _ hrest hP (hnext hT)

/-! ## Collection -/

/-- A call whose failure is recorded as data. -/
theorem Watching.wp_attempt (hw : Watching site P) {α β : Type} {Q : α → Shared → Prop}
    {E : Failure → Shared → Prop} {c : Call} (hc : c.free = true)
    (hquiet : ∀ id, c.concerns id = false) {f : Reply → β} {g : Failure → β} {k : β → Act α}
    (h : P b none s) (hT : Tracks T s.mem)
    (hok : ∀ t x, P b none t → Tracks T t.mem → Inv t → (served site).wp (k x) Q E t) :
    (served site).wp
      ((tryCatch (do let reply ← Act.call c; pure (f reply)) fun e => pure (g e)).bind k) Q E s := by
  refine wp_bind (wp_handle (hw.wp_call (d := none) Tracks.stable h hT hc (fun _ => stable_wp)
    ?_ ?_ ?_))
  · rintro t - - i hi
    simp [hquiet i] at hi
  · exact fun t out hT _ _ hP hu => wp_ret stable_wp (hok _ _ hP hT hu)
  · exact fun t out code hT _ hP hu => wp_ret stable_wp (hok _ _ hP hT hu)

/-- The region that stores samples; the telemetry database may throw inside it. -/
theorem Watching.wp_samples (hw : Watching site P) (h : P b none s) (hT : Tracks T s.mem)
    (began : ℕ) (gaps : List (String × String)) :
    (served site).wp (Act.commit' (.run id (.samples began gaps)))
      (fun _ t => P true none t ∧ Tracks T t.mem) (Watching.Gone P) s := by
  refine wp_bind (wp_perform (.and (hw.stable _ _) Tracks.stable) ⟨h, hT⟩ ?_ ?_ ?_)
  · rintro t ⟨hP, -⟩ -
    refine ⟨fun _ _ => trivial, fun i hi => ?_, .inl (hw.coverage hP)⟩
    simp [hw.calm hP i] at hi
  · rintro t a u mem ⟨hP, hT⟩ hinv ⟨out, hout⟩ hu hb
    have hout : performCommit _ out (t.tick out.elapsed) = (a, u) := hout
    unfold performCommit at hout
    split at hout
    · cases hout; cases hb
    · cases herror : out.error with
      | some => rw [herror] at hout; cases hout; cases hb
      | none =>
        rw [herror] at hout
        cases hout
        refine wp_ret stable_wp (wp_ret (.and (hw.stable _ _) Tracks.stable) ?_)
        exact ⟨hw.saved out.elapsed hP hinv rfl (.inl rfl), hT.write rfl (fun _ => rfl) _⟩
  · rintro t a u e ⟨hP, hT⟩ hinv ⟨out, hout⟩ hu hb
    have hout : performCommit _ out (t.tick out.elapsed) = (a, u) := hout
    refine wp_raise (hw.stable_gone _) ?_
    unfold performCommit at hout
    split at hout
    · next cut hcut =>
        obtain ⟨_, -, hcut⟩ := Option.bind_eq_some_iff.1 hcut
        cases hcut
        cases hout
        exact ⟨_, _, hw.updated out.elapsed hP hinv rfl⟩
    · cases herror : out.error with
      | none => rw [herror] at hout; cases hout; cases hb
      | some code =>
        rw [herror] at hout
        cases hout
        exact ⟨_, _, hw.failed out.elapsed code hP hinv rfl (.inl rfl)⟩

/-- Health and samples. -/
theorem collect_wp (hw : Watching site P) (h : P true none s) (hT : Tracks T s.mem) :
    (served site).wp (collect id run) (fun _ t => P true none t ∧ Tracks T t.mem)
      (Watching.Gone P) s := by
  refine hw.wp_clock Tracks.stable h hT (fun _ _ h => h) fun t hT hP hinv => ?_
  refine wp_when_join (P := fun t => (∃ b, P b none t) ∧ Tracks T t.mem) hinv (fun _ => ?_)
    (fun _ => ⟨⟨_, hP⟩, hT⟩) fun t ⟨⟨b, hP⟩, hT⟩ hinv => ?_
  · refine hw.wp_attempt (by rfl) (fun _ => rfl) hP hT fun t health hP hT hinv => ?_
    refine wp_perform (.and (hw.stable _ _) Tracks.stable) ⟨hP, hT⟩ (fun _ _ _ => ?_) ?_ ?_
    · exact ⟨fun _ _ => trivial, rfl⟩
    · rintro t a u x ⟨hP, hT⟩ hinv ⟨out, hout⟩ hu -
      cases hout
      refine wp_ret (.and (.exists fun b => hw.stable b _) Tracks.stable) ?_
      exact ⟨⟨_, hw.updated out.elapsed hP hinv rfl⟩, hT.write rfl (fun _ => rfl) _⟩
    · rintro t a u x - - - - hb
      cases hb
  refine hw.wp_attempt (by rfl) (fun _ => rfl) hP hT fun t gaps hP hT hinv => ?_
  exact hw.wp_samples hP hT _ gaps

/-! ## The whole -/

theorem monitorRun_wp (hw : Watching site P) (hrun : run.id = id) (hid : ∀ fid f, ¬ T id fid f)
    (h : P true none s)
    (hT : Tracks (fun i fid f => i = id ∧ run.state ≠ .destroyed ∧ run.faults[fid]? = some f ∨
      T i fid f) s.mem) :
    (served site).wp (monitorRun id run) (fun _ t => P true none t ∧ Tracks T t.mem)
      (Watching.Gone P) s := by
  have hpost : (served site).Stable fun t => P true none t ∧ Tracks T t.mem :=
    .and (hw.stable _ _) Tracks.stable
  unfold monitorRun
  split
  · exact wp_ret hpost ⟨h, hT.mono fun _ _ _ => .inr⟩
  · next hdestroyed =>
      have hlist : Tracks (Listed id run.faults.toList T) s.mem := by
        refine hT.mono fun i fid f hf => hf.imp_left fun ⟨hi, hmem⟩ => ⟨hi, ?_, ?_⟩
        · simpa using hdestroyed
        · exact TreeMap.mem_toList_iff_getElem?_eq_some.1 hmem
      have hnodup : run.faults.toList.Pairwise fun a b => a.1 ≠ b.1 := by
        refine (TreeMap.distinct_keys_toList (t := run.faults)).imp fun h => ?_
        simpa using h
      refine wp_bind (wp_mono ?_ (fun _ _ _ h => h)
        (expireFaults_wp hw hrun hid run.state _ hnodup h hlist))
      rintro state t - ⟨hP, hT⟩
      split
      · exact wp_ret hpost ⟨hP, hT⟩
      · exact collect_wp hw hP hT

/-- The faults of the runs in `list`. -/
def FaultsOf (list : List (RunId × Run)) : RunId → FaultId → Fault → Prop :=
  fun id fid f => ∃ run, (id, run) ∈ list ∧ run.state ≠ .destroyed ∧ run.faults[fid]? = some f

theorem monitorRuns_wp (hw : Watching site P) (list : List (RunId × Run))
    (hids : ∀ e ∈ list, e.2.id = e.1) (hnodup : list.Pairwise fun a b => a.1 ≠ b.1)
    (h : P true none s) (hT : Tracks (FaultsOf list) s.mem) :
    (served site).wp (monitorRuns list) (fun _ => P true none) (Watching.Gone P) s := by
  induction list generalizing s with
  | nil => exact wp_ret (hw.stable _ _) h
  | cons e rest ih =>
    obtain ⟨_, run⟩ := e
    obtain ⟨hne, hrest⟩ := List.pairwise_cons.1 hnodup
    refine wp_bind (wp_mono ?_ (fun _ _ _ h => h) (monitorRun_wp hw (T := FaultsOf rest)
      (hids _ (List.mem_cons_self ..)) ?_ h (hT.mono ?_)))
    · rintro _ t - ⟨hP, hT⟩
      exact ih (fun e he => hids e (List.mem_cons_of_mem _ he)) hrest hP hT
    · rintro fid f ⟨run', hmem, -⟩
      exact hne _ hmem rfl
    · rintro i fid f (⟨rfl, hstate, hf⟩ | ⟨run', hmem, hstate, hf⟩)
      · exact ⟨run, List.mem_cons_self .., hstate, hf⟩
      · exact ⟨run', List.mem_cons_of_mem _ hmem, hstate, hf⟩

/-- `m5_monitor` meets its guards in any setting that is `Watching`. -/
theorem m5Monitor_wp (hw : Watching site P) (h : P true none s) :
    (served site).wp m5Monitor (fun _ => P true none) (Watching.Gone P) s := by
  refine wp_read (hw.stable _ _) h fun t n hP hinv _ => ?_
  refine monitorRuns_wp hw _ ?_ ?_ (hw.tick n hP) ?_
  · rintro ⟨id, run⟩ hmem
    exact hinv.mem.run_id (TreeMap.mem_toList_iff_getElem?_eq_some.1 hmem)
  · refine (TreeMap.distinct_keys_toList (t := t.mem.runs)).imp fun h => ?_
    simpa using h
  · rintro id fid f ⟨run, hmem, hstate, hf⟩
    exact ⟨run, TreeMap.mem_toList_iff_getElem?_eq_some.1 hmem, hstate, hf⟩

end

/-! ## Between jobs -/

/-- A region of `m5_monitor` leaves the coverage of every run. -/
theorem RunWrite.mild_coverage (hw : w.mild = true) (clock : Clock) (r : Run) :
    (w.apply clock r).captureCoverage = r.captureCoverage := by
  rw [RunWrite.apply_captureCoverage]
  cases w <;> simp_all [RunWrite.mild]

theorem SameCoverage.mild {id i : RunId} (h : SameCoverage s i) (hw : w.mild = true) {clock : Clock}
    {t : Shared} (hmem : t.mem = (Write.run id w).apply clock s.mem) (hj : t.journal = s.journal) :
    SameCoverage t i := by
  intro old hold
  obtain ⟨r, hr, hcov⟩ := h (hj ▸ hold)
  refine ⟨_, by rw [hmem, Write.apply_run, hr]; rfl, ?_⟩
  show (if id = i then w.apply clock r else r).captureCoverage = _
  split
  · rw [RunWrite.mild_coverage hw, hcov]
  · exact hcov

/-- Between jobs nothing has to be kept but `Loop`. -/
theorem watching_loop : Watching site fun _ _ => Loop where
  stable _ _ := Loop.stable
  calm h := h.calm
  coverage h := h.coverage
  resumes h _ _ _ hj hrun := absurd hrun (h.unowned hj)
  owes _ h := h
  tick n h := h.tick n
  call out h hc _ := h.called (Call.free_ne_arm hc) out
  saved _ h _ _ _ := ⟨h.unowned, fun _ => rfl, fun _ old hold => ⟨old, hold, rfl⟩⟩
  failed _ _ h _ hw _ := ⟨h.unowned, h.calm, fun id => (h.coverage id).mild hw rfl rfl⟩
  updated _ h _ hw := ⟨h.unowned, h.calm, fun id => (h.coverage id).mild hw rfl rfl⟩

end Graphlab.Runtime
