import Graphlab.Runtime.Outline

/-!
# Faults

A fault is recorded as being applied before the backend applies it, and as removed or
cancelled after the backend has removed it.  So an installed fault is always recorded in
one of four states, in memory and in the journal (`Placed`), whatever the backend does
and wherever the agent crashes.  No region revives a fault that is gone, except the
failure handler, which takes the run out of service at once; a destroyed run therefore
has no live fault (`Bare`).

## Main results

* `Reached.placed`, `Reached.bare` — the two invariants.
* `fault_lifecycle` — what is recorded of faults, in every reachable state and after a
  restart.
-/

namespace Graphlab.Runtime

open Lib Supervised

variable {s t : Shared}

/-- The states of a fault that may be installed. -/
def FaultState.placed : FaultState → Bool
  | .applying => true
  | .active => true
  | .removing => true
  | .recoveryRequired => true
  | _ => false

/-- The fault is recorded in a state in which it may be installed. -/
def State.Places (d : State) (id : RunId) (fid : FaultId) : Prop :=
  ∃ (r : Run) (f : Fault), d.runs[id]? = some r ∧ r.faults[fid]? = some f ∧ f.state.placed = true

/-- Memory and journal know of each installed fault. -/
def Placed (s : Shared) : Prop :=
  ∀ ⦃id : RunId⦄ ⦃fid : FaultId⦄, (id, fid) ∈ s.world.installed →
    s.mem.Places id fid ∧ s.journal.Places id fid

/-- Destroyed runs have no live faults. -/
def State.Bare (d : State) : Prop :=
  ∀ ⦃id : RunId⦄ ⦃r : Run⦄, d.runs[id]? = some r → r.state = .destroyed →
    ∀ (fid : FaultId) (f : Fault), r.faults[fid]? = some f → f.state.live = false

/-! ## Installed faults -/

/-- Only `apply` installs a fault. -/
theorem Call.effect_installed {c : Call} {out : Outcome} {w : World} {p : RunId × FaultId}
    (h : p ∈ (c.effect out w).installed) :
    p ∈ w.installed ∨ ∃ run f, c = .fault run f .apply ∧ p = (run.id, f.id) := by
  cases c with
  | fault run f action =>
    cases action with
    | apply =>
      simp only [effect] at h
      split at h
      · rcases Finset.mem_insert.1 h with rfl | h
        · exact .inr ⟨run, f, rfl, rfl⟩
        · exact .inl h
      · exact .inl h
    | remove =>
      simp only [effect] at h
      split at h
      · exact .inl (Finset.mem_of_mem_erase h)
      · exact .inl h
  | captureControl run operation =>
    cases operation <;> simp only [effect] at h <;> (try split at h) <;> exact .inl h
  | prepare => simp only [effect] at h; split at h <;> exact .inl h
  | remove => simp only [effect] at h; split at h <;> exact .inl h
  | _ => exact .inl h

variable {ph : Phase} {w : Write} {clock : Clock} {id : RunId} {fid : FaultId}

/-- A region leaves an installed fault in a state in which it may be installed. -/
theorem WriteGuard.placed (hg : WriteGuard ph s w) {r : Run} (hr : s.mem.runs[id]? = some r)
    {f f' : Fault} (hf : r.faults[fid]? = some f) (he : w.FaultEffect clock s.mem id fid f f')
    (hin : (id, fid) ∈ s.world.installed) (h : f.state.placed = true) : f'.state.placed = true := by
  cases he with
  | same => exact h
  | set write value hset =>
    have hg := hg r hr
    cases write with
    | faultCleared => cases hset; exact absurd hin hg.2
    | faultExpiring => cases hset; rfl
    | faultExpired => cases hset; exact absurd hin hg.1
    | faultFailure => cases hset; rfl
    | faultRecovered => cases hset; exact absurd hin hg.1
    | _ => simp [RunWrite.setsFault] at hset
  | applying => rfl
  | removing => rfl
  | cancelled job j hj hid hfid hop =>
    -- A fault whose application has not begun is queued, hence not installed.
    obtain ⟨j', r', ho, hg⟩ := hg
    cases hj.symm.trans ho.job_eq
    subst hid hfid
    cases hr.symm.trans ho.run_eq
    rcases hg with ⟨-, g, hfg, hq⟩ | hg
    · cases hfg.symm.trans hf
      simp [hq, FaultState.placed] at h
    · simp [hop] at hg
  | done job cancel observed j hj hid hfid =>
    obtain ⟨_, _, _, ho, _, hg⟩ := hg
    cases hj.symm.trans ho.job_eq
    subst hid hfid
    rcases hg with ⟨hop, -, hc⟩ | ⟨-, -, -, hout⟩
    · cases cancel with
      | true => exact absurd hin (hc rfl)
      | false => simp [Write.doneFault, Write.doneState, hop, FaultState.placed]
    · exact absurd hin hout

theorem WriteGuard.places (hg : WriteGuard ph s w) (hin : (id, fid) ∈ s.world.installed)
    (h : s.mem.Places id fid) (clock : Clock) : (w.apply clock s.mem).Places id fid := by
  obtain ⟨_, _, hr, hf, hp⟩ := h
  obtain ⟨r', hr', he⟩ := @Write.run_apply clock s.mem w _ _ hr
  obtain ⟨f', hf', hfe⟩ := he.fault_apply hf
  exact ⟨r', f', hr', hf', hg.placed hr hf hfe hin hp⟩

theorem Applying.places {d : State} (h : Applying d id fid) : d.Places id fid := by
  obtain ⟨r, f, hr, hf, hstate⟩ := h
  exact ⟨r, f, hr, hf, by simp [hstate, FaultState.placed]⟩

namespace Placed

theorem does (h : Placed s) {o : Op} (hst : Does ph s o t) : Placed t := by
  cases hst with
  | wait => exact h
  | take => exact fun id fid hin => ⟨(h hin).1, (h hin).1⟩
  | failTake => exact h
  | update _ n w hg hw => exact fun id fid hin => ⟨hg.places hin (h hin).1 _, (h hin).2⟩
  | commit n w hg =>
    exact fun id fid hin => ⟨hg.1.places hin (h hin).1 _, hg.1.places hin (h hin).1 _⟩
  | failCommit n w code hg => exact fun id fid hin => ⟨hg.1.places hin (h hin).1 _, (h hin).2⟩
  | call n c out hg =>
    intro id fid hin
    rcases Call.effect_installed hin with hin | ⟨run, f, rfl, heq⟩
    · exact h hin
    · cases heq
      exact ⟨hg.1.places, hg.2.places⟩

theorem serve (h : Placed s) (hst : Serve s t) : Placed t := by
  intro id fid hin
  rw [hst.world_eq] at hin
  have hmem : t.mem.Places id fid := by
    obtain ⟨_, f, hr, hf, hp⟩ := (h hin).1
    obtain ⟨_, hr', _, _, _, _, _, rfl, hkeeps⟩ := hst.run hr
    exact ⟨_, f, hr', hkeeps fid f hf, hp⟩
  exact both_of_saved (P := fun d => d.Places id fid) hmem (h hin).2 hst.journal_eq

end Placed

theorem Reached.placed {site : Site} {ok : StepCondition} {c : Agent} (h : Reaches site ok c) :
    Placed c.state :=
  Reached.invariant (J := Placed) (fun _ _ hin => by simp at hin) (fun _ _ _ hst h => h.serve hst)
    (fun _ _ _ _ _ hst h => h.does hst) (fun _ _ _ h _ _ hin => ⟨(h hin).2, (h hin).2⟩) h

/-! ## Destroyed runs -/

/-- A run that is destroyed after a region was destroyed before, or torn down. -/
theorem WriteGuard.destroyed_before (hg : WriteGuard ph s w) {r r' : Run}
    (hr : s.mem.runs[id]? = some r) (he : Write.RunEffect clock s.mem id r w r')
    (hd : r'.state = .destroyed) : r.state = .destroyed ∨ r.TornDown := by
  cases he with
  | same => exact .inl hd
  | finished => exact .inl hd
  | telemetryError => exact .inl hd
  | faultDone => exact .inl hd
  | failed => simp [Write.failRun] at hd
  | interrupted => simp at hd
  | faultBegin job i hi hid =>
    obtain ⟨_, _, heq⟩ := Write.beginRun_eq clock r i
    rw [heq] at hd
    exact .inl hd
  | run write =>
    have hg := hg r hr
    rw [RunWrite.apply_state] at hd
    cases write with
    | state value =>
      obtain rfl : value = .destroyed := hd
      obtain ⟨_, _, -, -, -, hdown⟩ := hg
      exact .inr hdown
    | adopted =>
      simp only at hd
      split at hd
      · cases hd
      · exact .inl hd
    | armed => cases hd
    | monitorFailed => cases hd
    | faultFailure => cases hd
    | adopting => cases hd
    | _ => exact .inl hd

namespace State.Bare

/-- A region keeps the invariant. -/
theorem apply (h : s.mem.Bare) (hg : WriteGuard ph s w) (clock : Clock) :
    (w.apply clock s.mem).Bare := by
  intro id r' hr' hd fid f' hf'
  obtain ⟨_, hr, he⟩ := Write.run_of_apply hr'
  obtain ⟨f, hf, hfe⟩ := he.fault_of_apply hf'
  have hgone : f.state.live = false := by
    rcases hg.destroyed_before hr he hd with hd | hdown
    · exact h hr hd fid f hf
    · exact hdown.faults fid f hf
  by_contra hlive
  rw [Bool.not_eq_false] at hlive
  rcases hg.live_before hr hf hfe hlive with hlive | ⟨error, rfl⟩
  · simp [hgone] at hlive
  · -- The failure handler leaves the run reconciling.
    rw [Write.apply_run, hr] at hr'
    obtain rfl := Option.some.inj hr'
    simp [Write.onRun, RunWrite.apply_state] at hd

theorem does {o : Op} (h : s.mem.Bare) (hst : Does ph s o t) : t.mem.Bare :=
  hst.mem_of h (fun _ clock hg => h.apply hg clock) fun _ _ _ _ => h

end State.Bare

/-- A fault is admitted only on a run that is in service. -/
theorem Admits.fault_destroyed {mem : State} {job : Job} {run : Run} (h : Admits clock mem job run)
    (hd : run.state = .destroyed) :
    ∃ r, mem.runs[job.runId]? = some r ∧ r.state = .destroyed ∧ run.faults = r.faults := by
  cases h with
  | start => cases hd
  | operate r hr hrev hop => exact ⟨r, hr, hd, rfl⟩
  | remove r detail hr hrev hop => exact ⟨r, hr, hd, rfl⟩
  | apply r f detail hr hrev hop hstate =>
    have hd : r.state = .destroyed := hd
    simp [hd] at hstate

theorem State.Bare.serve (h : s.mem.Bare) (hst : Serve s t) : t.mem.Bare := by
  have hmodify : ∀ (i : RunId) (f : Run → Run),
      (∀ r, (f r).state = r.state ∧ (f r).faults = r.faults) → (s.mem.modifyRun i f).Bare := by
    intro i f hf id r' hr' hd fid x hx
    rw [State.modifyRun_run, Option.map_eq_some_iff] at hr'
    obtain ⟨r, hr, rfl⟩ := hr'
    split at hd
    · rw [if_pos ‹_›, (hf r).2] at hx
      exact h hr ((hf r).1 ▸ hd) fid x hx
    · rw [if_neg ‹_›] at hx
      exact h hr hd fid x hx
  cases hst with
  | stop => exact h
  | cancel => rw [Shared.saveRequest_mem]; exact h
  | source => rw [Shared.saveRequest_mem]; exact h
  | session i r d error => rw [Shared.saveRequest_mem]; exact hmodify i _ fun _ => ⟨rfl, rfl⟩
  | sessionLost i error => rw [Shared.saveRequest_mem]; exact hmodify i _ fun _ => ⟨rfl, rfl⟩
  | enrol job run key hash error hs hidle hsize hnew hkey hq hc hrun =>
    rw [Shared.enrol_mem]
    intro id r' hr' hd fid f hf
    rw [State.enqueue_run] at hr'
    split at hr'
    · obtain rfl := Option.some.inj hr'
      obtain ⟨_, hr, hd, hfaults⟩ := hrun.fault_destroyed hd
      exact h hr hd fid f (hfaults ▸ hf)
    · exact h hr' hd fid f hf

theorem Reached.bare {site : Site} {ok : StepCondition} {c : Agent} (h : Reaches site ok c) :
    c.state.mem.Bare ∧ c.state.journal.Bare :=
  Reached.both (P := State.Bare) (fun _ _ hr => by simp at hr) (fun _ _ _ hst h => h.serve hst)
    (fun _ _ _ _ _ hst h => h.does hst) h

/-! ## The lifecycle of faults -/

/-- What every document of the agent says of faults, given what is installed. -/
structure State.TracksFaults (d : State) (installed : Finset (RunId × FaultId)) : Prop where
  /-- What is recorded as gone is not installed. -/
  gone : ∀ {id : RunId} {r : Run} {fid : FaultId} {f : Fault}, d.runs[id]? = some r →
    r.faults[fid]? = some f → f.state = .removed ∨ f.state = .cancelled → (id, fid) ∉ installed
  /-- One live fault for each edge and direction. -/
  sole : ∀ {id : RunId} {r : Run} {fid gid : FaultId} {f g : Fault}, d.runs[id]? = some r →
    r.faults[fid]? = some f → r.faults[gid]? = some g → f.state.live = true →
    g.state.live = true → g.edge = f.edge → g.direction = f.direction → gid = fid
  /-- None on a destroyed run. -/
  bare : ∀ {id : RunId} {r : Run} {fid : FaultId} {f : Fault}, d.runs[id]? = some r →
    r.state = .destroyed → r.faults[fid]? = some f → f.state.live = false

theorem Sound.tracksFaults {world : World} {log : List Event} {d : State} (h : Sound world log d)
    (hplaces : ∀ (id : RunId) (fid : FaultId), (id, fid) ∈ world.installed → d.Places id fid)
    (hbare : d.Bare) : d.TracksFaults world.installed where
  gone {id r fid f} hr hf hstate hin := by
    obtain ⟨_, _, hr', hf', hp⟩ := hplaces id fid hin
    cases hr.symm.trans hr'
    cases hf.symm.trans hf'
    rcases hstate with hstate | hstate <;> simp [hstate, FaultState.placed] at hp
  sole hr hf hg hlive hglive hedge hdirection := by
    by_contra hne
    exact h.sole hr hf hlive hg hne hglive hedge hdirection
  bare hr hd hf := hbare hr hd _ _ hf

/-- **Faults.**  In every reachable state, and both in memory and in the journal: a fault
recorded as removed or cancelled is not installed, each edge and direction of a run has
at most one live fault, and a destroyed run has none.  Right after a restart each live
fault of a run that is not destroyed is active, of this boot and not expired when
recovery looked at it, or it needs recovery and its run is reconciling. -/
theorem fault_lifecycle {site : Site} {c : Agent} (h : Reached site c) :
    c.state.mem.TracksFaults c.state.world.installed ∧
    c.state.journal.TracksFaults c.state.world.installed ∧
    ∀ i : Choice, (¬ c.thread.Serves ∨ ∃ b, i = .restart b) →
      ((engine site).step c i).thread.Serves →
      ∀ (id : RunId) (r : Run) (fid : FaultId) (f : Fault),
        ((engine site).step c i).state.mem.runs[id]? = some r → r.state ≠ .destroyed →
        r.faults[fid]? = some f → Settled ((engine site).step c i).state r f := by
  have hinv := Reached.inv h
  have hplaced := Reached.placed h
  refine ⟨hinv.mem.tracksFaults (fun _ _ hin => (hplaced hin).1) (Reached.bare h).1,
    hinv.journal.tracksFaults (fun _ _ hin => (hplaced hin).2) (Reached.bare h).2, ?_⟩
  intro i hi hserves id r fid f hr hne hf
  exact (Reached.ready h hi hserves).recovered id r (by simp) hr hne fid f hf

/-- A fault is applied; the agent restarts within the same boot, up to its last `save`. -/
def faulted : List Choice :=
  Sample.up ++ Sample.start "a" "j1" "start-one" :: Sample.working 21 ++
    .request (.client 0
      (.faultApply
        { runId := "a", expectedRevision := "1", idempotencyKey := "apply-one"
          fault := { edge := "link", direction := "a-to-b", kind := "netem", delayMs := some 5,
                     durationSeconds := some 60 } })
      { jobId := "j2", faultId := "f" }) :: Sample.working 7 ++
    .restart {} :: Sample.working 6

/-- Its agent, and the agent once it serves again. -/
def recovering : Agent := (engine (Sample.wired false)).run initial faulted
def recovered : Agent := (engine (Sample.wired false)).step recovering (.work {})

/-- The fault is installed all along, and found active. -/
theorem fault_lifecycle_recovered :
    ("a", "f") ∈ recovered.state.world.installed ∧
    ∃ (r : Run) (f : Fault), recovered.state.mem.runs["a"]? = some r ∧
      r.faults["f"]? = some f ∧ f.state = .active ∧ Settled recovered.state r f := by
  have hrun : recovered.state.mem.runs["a"]?.map (fun r => (r.state, r.faults["f"]?.map (·.state))) =
      some (.ready, some .active) := by decide
  obtain ⟨r, hr, heq⟩ := Option.map_eq_some_iff.1 hrun
  simp only [Prod.mk.injEq, Option.map_eq_some_iff] at heq
  obtain ⟨hstate, f, hf, hactive⟩ := heq
  have hreached : Reached (Sample.wired false) recovering := path_run initial faulted
  have hdown : ¬ recovering.thread.Serves := by decide
  have hserves : recovered.thread.Serves := by decide
  exact ⟨by decide, r, f, hr, hf, hactive,
    (fault_lifecycle hreached).2.2 (.work {}) (.inl hdown) hserves "a" r "f" f hr
      (by simp [hstate]) hf⟩

end Graphlab.Runtime
