import Graphlab.Runtime.Rules

/-!
# Verifying `cleanup`

From wherever a job stands, `cleanup` removes the faults of its run, closes the
captures and removes the resources in reverse order.  What it returns with is
`Run.TornDown`; what it changes is nothing else that matters.

## Main results

* `m5Clear_wp`, `closeCaptures_wp`, `removeResources_wp` — the three parts.
* `cleanup_wp` — the whole.
-/

namespace Graphlab.Runtime

open Std (TreeMap)
open Lib Lib.Discipline

variable {site : Site} {j : JobId} {job : Job} {r : Run} {F : World → List Event → Prop}
  {s : Shared} {E : Failure → Shared → Prop}

/-- What `cleanup` leaves alone. -/
structure SameRun (r r' : Run) : Prop where
  state : r'.state = r.state
  topology : r'.topology = r.topology

namespace SameRun

theorem refl (r : Run) : SameRun r r := ⟨rfl, rfl⟩

theorem trans {r₁ r₂ r₃ : Run} (h : SameRun r₁ r₂) (h' : SameRun r₂ r₃) : SameRun r₁ r₃ :=
  ⟨h'.state.trans h.state, h'.topology.trans h.topology⟩

theorem recording {r r' : Run} (h : SameRun r r') : r'.recording = r.recording := by
  simp only [Run.recording, h.topology]

end SameRun

/-! ## Faults -/

/-- The faults of `r` that are live are listed. -/
def Lists (r : Run) (list : List (FaultId × Fault)) : Prop :=
  ∀ (fid : FaultId) (f : Fault), r.faults[fid]? = some f → f.state.live = true →
    ∃ g, (fid, g) ∈ list ∧ g.state.live = true

theorem clearFaults_wp (hE : Catches site j job E) {run : Run} (hid : run.id = job.runId)
    (list : List (FaultId × Fault)) (hkeys : ∀ e ∈ list, e.2.id = e.1) (h : At j job r F s)
    (hlist : Lists r list) :
    (served site).wp (clearFaults run list)
      (fun _ t => ∃ r', At j job r' Anything t ∧ SameRun r r' ∧ r'.resources = r.resources ∧
        Lists r' []) E s := by
  induction list generalizing r F s with
  | nil =>
    refine wp_ret (.exists fun _ => .and At.stable (.const _)) ?_
    exact ⟨r, h.anything, .refl r, rfl, hlist⟩
  | cons e rest ih =>
    obtain ⟨fid, f⟩ := e
    have hrest : ∀ e ∈ rest, e.2.id = e.1 := fun e he => hkeys e (List.mem_cons_of_mem _ he)
    refine wp_when (fun hlive => ?_) fun hlive => ?_
    · simp only [Prog.bind_eq, Prog.bind_assoc]
      refine h.free' hE (by rfl) fun t ht hinv => ?_
      rw [hid]
      refine ht.commit' hE (.faultCleared fid) (fun _ => rfl) (fun t ht _ => ?_)
        fun t clock ht hinv => ?_
      · obtain ⟨_, ho⟩ := ht.owns
        obtain ⟨_, _, _, -, herror, hw, -⟩ := ht.outside
        refine ⟨⟨j, _, ho, rfl⟩, ?_⟩
        have hfid : f.id = fid := hkeys (fid, f) (List.mem_cons_self ..)
        simp [hw, Call.effect, herror, hid, hfid]
      · refine wp_mono ?_ (fun _ _ _ h => h) (ih hrest ht ?_)
        · rintro _ u _ ⟨r', hat, hsame, hres, hnone⟩
          have hstep : SameRun r (RunWrite.apply clock r (.faultCleared fid)) := ⟨rfl, rfl⟩
          exact ⟨r', hat, hstep.trans hsame, hres, hnone⟩
        · intro i g hg hglive
          rw [RunWrite.apply_fault, Option.map_eq_some_iff] at hg
          obtain ⟨f', hf', rfl⟩ := hg
          by_cases hi : fid = i
          · simp [RunWrite.onFault, RunWrite.setsFault, hi, FaultState.live] at hglive
          · simp only [RunWrite.onFault, RunWrite.setsFault, hi, if_false] at hglive
            obtain ⟨g', hg', hlive'⟩ := hlist i f' hf' hglive
            rcases List.mem_cons.1 hg' with heq | hmem
            · exact absurd (Prod.mk.inj heq).1.symm hi
            · exact ⟨g', hmem, hlive'⟩
    · -- A fault that is gone is not the one a live fault is listed by.
      refine ih hrest h fun i g hg hglive => ?_
      obtain ⟨g', hg', hlive'⟩ := hlist i g hg hglive
      rcases List.mem_cons.1 hg' with heq | hmem
      · cases heq
        simp [hlive] at hlive'
      · exact ⟨g', hmem, hlive'⟩

/-- `m5_clear` leaves no live fault. -/
theorem m5Clear_wp (hE : Catches site j job E) (h : At j job r F s) :
    (served site).wp (m5Clear job.runId)
      (fun _ t => ∃ r', At j job r' Anything t ∧ SameRun r r' ∧ r'.resources = r.resources ∧
        Lists r' []) E s := by
  refine h.readRun fun t ht hinv => clearFaults_wp hE (ht.run_id hinv) _ ?_ ht ?_
  · rintro ⟨fid, f⟩ hf
    exact hinv.mem.fault_id ht.run (TreeMap.mem_toList_iff_getElem?_eq_some.1 hf)
  · intro fid f hf hlive
    exact ⟨f, TreeMap.mem_toList_iff_getElem?_eq_some.2 hf, hlive⟩

/-! ## Captures -/

/-- After a successful `stop` of the current captures no worker of the run is live. -/
theorem At.noWorkers (hinv : Inv s) (h : At j job r (Called (.captureControl r .stop) none F) s) :
    NoWorkers s job.runId := by
  intro x hx
  obtain ⟨_, _, _, -, herror, hw, -⟩ := h.outside
  obtain ⟨_, hr', c, hc, hcx⟩ := hinv.mem.workers hx
  cases h.run.symm.trans hr'
  rw [hw] at hx
  simp only [Call.effect, herror, Option.isNone_none, if_true, Finset.mem_sdiff,
    Run.captureWorkers, List.mem_toFinset, List.mem_map, not_exists, not_and] at hx
  exact hx.2 c hc (by rw [h.run_id hinv, hcx])

theorem isClosed_closedCoverage (coverage : Coverage) (observations : List Observation) :
    (Run.closedCoverage coverage observations).isClosed = true := by
  unfold Run.closedCoverage
  split <;> rfl

/-- `close_captures` leaves the captures of a recording run closed. -/
theorem closeCaptures_wp (hE : Catches site j job E) (h : At j job r F s) :
    (served site).wp (closeCaptures job.runId)
      (fun _ t => ∃ r', At j job r' Anything t ∧ SameRun r r' ∧ r'.resources = r.resources ∧
        r'.faults = r.faults ∧ (r.recording = true → r'.captureCoverage.isClosed = true)) E s := by
  have hpost : ∀ r' : Run, (served site).Stable fun t => At j job r' Anything t ∧ SameRun r r' ∧
      r'.resources = r.resources ∧ r'.faults = r.faults ∧
      (r.recording = true → r'.captureCoverage.isClosed = true) :=
    fun _ => .and At.stable (.const _)
  refine h.readRun fun t ht hinv => ?_
  cases hrec : r.recording with
  | false =>
    refine wp_ret (.exists fun r' => by simpa [hrec] using hpost r') ?_
    exact ⟨r, ht.anything, .refl r, rfl, rfl, by simp⟩
  | true =>
    simp only [Act.when, if_true, Prog.bind_eq]
    refine ht.free hE (by rfl) fun t reply ht hinv => ?_
    rw [← Prog.bind_ret (Act.commit' _)]
    refine ht.commit' hE (.closed r.captureCoverage reply.observations) (fun _ => rfl)
      (fun t ht hinv => ⟨ht.noWorkers hinv, rfl⟩) fun t clock ht hinv => ?_
    refine wp_ret (.exists fun r' => by simpa [hrec] using hpost r') ?_
    exact ⟨_, ht.anything, ⟨rfl, rfl⟩, rfl, rfl, fun _ => isClosed_closedCoverage _ _⟩

theorem stopSessions_wp (hE : Catches site j job E) (generation : ℕ) (sessions : List Session)
    (h : At j job r F s) :
    (served site).wp (stopSessions generation sessions) (fun _ => At j job r Anything) E s := by
  induction sessions generalizing F s with
  | nil => exact wp_ret At.stable h.anything
  | cons d rest ih => exact h.free' hE (by rfl) fun t ht hinv => ih ht

/-! ## Resources -/

/-- The entries from `n` on are removed; those before are as in the snapshot `run`. -/
structure RemovedFrom (run r : Run) (n : ℕ) : Prop where
  before : ∀ i, i < n → r.resources[i]? = run.resources[i]?
  after : ∀ (i : ℕ) (x : Resource), n ≤ i → r.resources[i]? = some x → x.state = .removed

namespace RemovedFrom

variable {run : Run} {n : ℕ}

theorem all (h : RemovedFrom run r 0) : ∀ x ∈ r.resources, x.state = .removed := by
  intro x hx
  obtain ⟨i, hi⟩ := List.mem_iff_getElem?.1 hx
  exact h.after i x (Nat.zero_le i) hi

/-- An entry that is absent or removed needs nothing. -/
theorem skip (h : RemovedFrom run r (n + 1))
    (hn : ∀ x, run.resources[n]? = some x → x.state = .removed) : RemovedFrom run r n where
  before i hi := h.before i (by omega)
  after i x hi hx := by
    rcases Nat.lt_or_eq_of_le hi with hlt | rfl
    · exact h.after i x hlt hx
    · exact hn x (h.before n (by omega) ▸ hx)

/-- Marking the entry at `n`. -/
theorem mark (h : RemovedFrom run r (n + 1)) (clock : Clock) :
    RemovedFrom run (RunWrite.apply clock r (.removed n)) n where
  before i hi := by
    have hne : n ≠ i := by omega
    simp [RunWrite.apply, hne, h.before i (by omega)]
  after i x hi hx := by
    simp only [RunWrite.apply, List.getElem?_modify, Option.map_eq_map,
      Option.map_eq_some_iff] at hx
    obtain ⟨y, hy, rfl⟩ := hx
    rcases Nat.lt_or_eq_of_le hi with hlt | rfl
    · have hne : n ≠ i := by omega
      simpa [hne] using h.after i y hlt hy
    · simp

end RemovedFrom

theorem removeResources_wp (hE : Catches site j job E) {run : Run} (hid : run.id = job.runId)
    (n : ℕ) (h : At j job r F s) (hn : RemovedFrom run r n) :
    (served site).wp (removeResources run n)
      (fun _ t => ∃ r', At j job r' Anything t ∧ SameRun r r' ∧ r'.faults = r.faults ∧
        r'.captureCoverage = r.captureCoverage ∧ ∀ x ∈ r'.resources, x.state = .removed) E s := by
  induction n generalizing r F s with
  | zero =>
    refine wp_ret (.exists fun _ => .and At.stable (.const _)) ?_
    exact ⟨r, h.anything, .refl r, rfl, rfl, hn.all⟩
  | succ n ih =>
    unfold removeResources
    cases hx : run.resources[n]? with
    | none => exact ih h (hn.skip fun x hx' => by simp [hx] at hx')
    | some resource =>
      simp only [Prog.bind_eq]
      by_cases hstate : resource.state = .removed
      · simp only [hstate, bne_self_eq_false, Bool.false_eq_true, if_false]
        exact ih h (hn.skip fun x hx' => by simp_all)
      · have hne : (resource.state != .removed) = true := by simpa using hstate
        simp only [hne, if_true]
        have hentry : r.resources[n]? = some resource := (hn.before n (by omega)).trans hx
        refine h.call' hE (by simp) ?_ fun t ht hinv => ?_
        · intro t ht hinv
          refine ⟨r, n, hid ▸ ht.journal_run, hentry, hstate, fun k x hk hkx => ?_⟩
          exact hn.after k x hk hkx
        · rw [hid]
          refine ht.commit' hE (.removed n) (fun _ => rfl) (fun t ht hinv x hx' => ?_)
            fun t clock ht hinv => ?_
          · cases hentry.symm.trans hx'
            obtain ⟨_, _, _, -, herror, hw, -⟩ := ht.outside
            simp [hw, Call.effect, herror, hid]
          · refine wp_mono ?_ (fun _ _ _ h => h) (ih ht (hn.mark clock))
            rintro _ u _ ⟨r', hat, hsame, hfaults, hcoverage, hall⟩
            have hstep : SameRun r (RunWrite.apply clock r (.removed n)) := ⟨rfl, rfl⟩
            exact ⟨r', hat, hstep.trans hsame, hfaults, hcoverage, hall⟩

/-- `cleanup` tears the run down. -/
theorem cleanup_wp (hE : Catches site j job E) (h : At j job r F s) :
    (served site).wp (cleanup job.runId)
      (fun _ t => ∃ r', At j job r' Anything t ∧ SameRun r r' ∧ r'.TornDown) E s := by
  unfold cleanup
  simp only [Prog.bind_eq]
  refine wp_bind (wp_mono ?_ (fun _ _ _ h => h) (m5Clear_wp hE h))
  rintro _ t _ ⟨r₁, h₁, hsame₁, -, hnone⟩
  refine wp_bind (wp_mono ?_ (fun _ _ _ h => h) (closeCaptures_wp hE h₁))
  rintro _ t _ ⟨r₂, h₂, hsame₂, -, hfaults₂, hclosed⟩
  refine h₂.readRun fun t ht hinv => ?_
  refine wp_bind (wp_mono ?_ (fun _ _ _ h => h) (stopSessions_wp hE _ r₂.sessions ht))
  rintro _ t hinv h₂
  have hstart : RemovedFrom r₂ r₂ r₂.resources.length :=
    ⟨fun _ _ => rfl, fun i x hi hx => by
      have := (List.getElem?_eq_some_iff.1 hx).1
      omega⟩
  refine wp_mono ?_ (fun _ _ _ h => h) (removeResources_wp hE (h₂.run_id hinv) _ h₂ hstart)
  rintro _ u _ ⟨r₃, h₃, hsame₃, hfaults₃, hcoverage₃, hall⟩
  refine ⟨r₃, h₃, hsame₁.trans (hsame₂.trans hsame₃), hall, fun fid f hf => ?_, fun hrec => ?_⟩
  · by_contra hlive
    rw [hfaults₃, hfaults₂] at hf
    obtain ⟨_, hmem, -⟩ := hnone fid f hf (by simpa using hlive)
    simp at hmem
  · rw [hcoverage₃]
    exact hclosed (by rw [← hsame₂.recording, ← hsame₃.recording]; exact hrec)

end Graphlab.Runtime
