import Graphlab.Runtime.Outline

/-!
# Gaps in the capture

Once the coverage of a run says that something was not captured, closing files does not
erase that: only the next epoch does, when its workers have been armed.  Coverage is
written by seven regions; `WriteGuard.gap_kept` goes through them once.

## Main results

* `Reached.gap_step` — the only step that ends a gap in the journal.
* `Since` — what happened to a run after a given state.
* `coverage_gap` — the arm that ends a gap is of a later epoch than the gap.
* `artifacts_gapped` — until then the segments are listed with the gap.
-/

namespace Graphlab.Runtime

open Lib Supervised

variable {s t : Shared}

/-- The coverage of the run, which requires capture, records a gap. -/
def State.Gapped (d : State) (id : RunId) : Prop :=
  ∃ r, d.runs[id]? = some r ∧ r.recording = true ∧ r.captureCoverage.isIncomplete = true

/-! ## Regions -/

variable {ph : Phase} {site : Site} {ok : StepCondition} {c : Agent}

/-- A region that does not arm the run keeps its gap. -/
theorem WriteGuard.gap_kept {w : Write} (hg : WriteGuard ph s w) {id : RunId} {r r' : Run}
    {clock : Clock} (hr : s.mem.runs[id]? = some r) (he : Write.RunEffect clock s.mem id r w r')
    (hgap : r.captureCoverage.isIncomplete = true) :
    r'.captureCoverage.isIncomplete = true ∨ ∃ at', w = .run id (.armed at') := by
  cases he with
  | same => exact .inl hgap
  | telemetryError => exact .inl hgap
  | faultDone => exact .inl hgap
  | interrupted => exact .inl hgap
  | faultBegin job i hi hid =>
    obtain ⟨_, _, heq⟩ := Write.beginRun_eq clock r i
    rw [heq]
    exact .inl hgap
  | failed =>
    simp only [Write.failRun]
    split
    · exact .inl rfl
    · exact .inl hgap
  | finished job last observation hid =>
    obtain ⟨_, ho, hrun, hc⟩ := hg
    have hlast : last = r := by
      have := ho.run_eq
      rw [hrun, hid, hr] at this
      exact (Option.some.inj this).symm
    subst hlast
    simp only [Write.finishRun]
    split
    · next hrec =>
        -- A run that completes with a gap has its files closed.
        have hcov := hc.coverage hrec
        left
        unfold Run.completedCoverage
        by_cases hready : last.state = .ready
        · rw [if_pos hready] at hcov
          simp [hcov, Coverage.isIncomplete] at hgap
        · rw [if_neg hready] at hcov
          cases hl : last.captureCoverage <;>
            simp_all [Coverage.isIncomplete, Coverage.isClosed]
    · exact .inl hgap
  | run write =>
    have hg := hg r hr
    rw [RunWrite.apply_captureCoverage]
    cases write with
    | armed at' => exact .inr ⟨at', rfl⟩
    | closed =>
      obtain ⟨-, rfl⟩ := hg
      simp only [Run.closedCoverage, hgap, Bool.true_or, if_true]
      exact .inl rfl
    | monitorFailed => exact .inl rfl
    | adoptionFailed => exact .inl rfl
    | adopting =>
      cases hl : r.captureCoverage <;>
        simp_all [adoptingCoverage, Coverage.isIncomplete, Coverage.isClosed]
    | _ => exact .inl hgap

/-! ## Steps -/

/-- The run requires capture. -/
def State.Recording (d : State) (id : RunId) : Prop :=
  ∃ r, d.runs[id]? = some r ∧ r.recording = true

theorem Does.recording {o : Op} (hst : Does ph s o t) {id : RunId}
    (h : s.mem.Recording id) : t.mem.Recording id := by
  refine hst.mem_of (P := fun d => d.Recording id) h (fun w clock _ => ?_) fun _ _ _ _ => h
  obtain ⟨r, hr, hrec⟩ := h
  obtain ⟨r', hr', he⟩ := @Write.run_apply clock s.mem w id r hr
  exact ⟨r', hr', he.recording_eq ▸ hrec⟩

theorem Serve.recording (hst : Serve s t) {id : RunId} (h : s.mem.Recording id) :
    t.mem.Recording id := by
  obtain ⟨_, hr, hrec⟩ := h
  obtain ⟨_, hr', _, _, _, _, _, rfl, -⟩ := hst.run hr
  exact ⟨_, hr', hrec⟩

theorem Serve.gapped (hst : Serve s t) {id : RunId} : t.mem.Gapped id ↔ s.mem.Gapped id := by
  constructor
  · rintro ⟨r', hr', hrec, hgap⟩
    rcases hst.run_of hr' with ⟨r, hr, _, _, _, _, _, rfl, -⟩ | ⟨-, -, _, _, topology, _, _, rfl⟩
    · exact ⟨r, hr, hrec, hgap⟩
    · simp only at hgap
      split at hgap <;> simp [Coverage.isIncomplete] at hgap
  · rintro ⟨r, hr, hgap⟩
    obtain ⟨_, hr', _, _, _, _, _, rfl, -⟩ := hst.run hr
    exact ⟨_, hr', hgap⟩

/-- Memory has the gap of the journal if it has its coverage. -/
theorem SameCoverage.gapped {id : RunId} (hsame : SameCoverage s id) (hrec : s.mem.Recording id)
    (h : s.journal.Gapped id) : s.mem.Gapped id := by
  obtain ⟨_, hold, -, hgap⟩ := h
  obtain ⟨r, hr, hcov⟩ := hsame hold
  obtain ⟨_, hr', hrec⟩ := hrec
  cases hr.symm.trans hr'
  exact ⟨r, hr, hrec, hcov ▸ hgap⟩

/-- A commit that does not arm the run keeps its gap. -/
theorem Guard.gap_kept {w : Write} (hg : Guard ph s (.commit w)) {id : RunId}
    (hrec : s.mem.Recording id) (h : s.journal.Gapped id) (clock : Clock) :
    (w.apply clock s.mem).Gapped id ∨ ∃ at', w = .run id (.armed at') := by
  have hkept : s.mem.Gapped id → (w.apply clock s.mem).Gapped id ∨
      ∃ at', w = .run id (.armed at') := by
    rintro ⟨r, hr, hrec, hgap⟩
    obtain ⟨r', hr', he⟩ := @Write.run_apply clock s.mem w id r hr
    rcases hg.1.gap_kept hr he hgap with hgap' | harmed
    · exact .inl ⟨r', hr', he.recording_eq ▸ hrec, hgap'⟩
    · exact .inr harmed
  rcases hg.2.2 with hsame | ⟨j, error, rfl⟩
  · exact hkept ((hsame id).gapped hrec h)
  · -- The failure handler may save what an earlier `save` did not.
    obtain ⟨job, hfails⟩ := hg.1
    by_cases hid : id = job.runId
    · obtain ⟨r, hr, hrec⟩ := hrec
      refine .inl ⟨Write.failRun r, ?_, hrec, by simp [Write.failRun, hrec]; rfl⟩
      rw [Write.apply_run, hr]
      simp [Write.onRun, hfails.mem, hid]
    · exact hkept ((hfails.coverage id hid).gapped hrec h)

/-- While the agent serves, memory and journal have the same gaps. -/
theorem Reached.gapped_iff (h : Reaches site ok c) (hopen : c.state.stopping = false) (id : RunId) :
    c.state.mem.Gapped id ↔ c.state.journal.Gapped id := by
  have hsame := Reached.inStep (f := fun r => (r.recording, r.captureCoverage))
    (fun id w clock r hw => by
      cases w <;> first | rfl | simp [Write.light, Write.unsaved] at hw) h hopen id
  have hgapped : ∀ d : State, d.Gapped id ↔
      ∃ x, d.runs[id]?.map (fun r => (r.recording, r.captureCoverage)) = some x ∧ x.1 = true ∧
        x.2.isIncomplete = true := by
    intro d
    cases hr : d.runs[id]? <;> simp [State.Gapped, hr]
  rw [hgapped, hgapped, hsame]

/-- Requests neither end nor open a gap. -/
theorem arrive_gapped (h : Reaches site ok c) (a : Arrival) (id : RunId) :
    (arrive site a c.state).journal.Gapped id ↔ c.state.journal.Gapped id := by
  refine (arrive_keeps
    (J := fun s => (s.journal.Gapped id ↔ c.state.journal.Gapped id) ∧
      (s.stopping = false → (s.mem.Gapped id ↔ c.state.journal.Gapped id)))
    (fun s t _ hst hJ => ?_) (Reached.inv h) ⟨.rfl, fun hopen => Reached.gapped_iff h hopen id⟩
    a).1
  by_cases hopen : s.stopping = true
  · rw [hst.eq_of_stopping hopen]
    exact ⟨hJ.1, by simp⟩
  · have hmem := hst.gapped.trans (hJ.2 (by simpa using hopen))
    refine ⟨?_, fun _ => hmem⟩
    rcases hst.journal_eq with hj | hj
    · exact hj ▸ hmem
    · exact hj ▸ hJ.1

/-- In the journal a gap is ended only by the commit that records an armed epoch. -/
theorem Reached.gap_step (h : Reached site c) (i : Choice) {id : RunId}
    (hgap : c.state.journal.Gapped id)
    (hexit : ¬ ((engine site).step c i).state.journal.Gapped id) :
    ∃ at' out, i = .work out ∧ c.thread.nextOp = some (.commit (.run id (.armed at'))) := by
  have hrec : c.state.mem.Recording id := by
    obtain ⟨r, hr, hrec, -⟩ := hgap
    exact mem_of_journal (P := fun d => d.Recording id) (fun _ _ _ hst => hst.recording)
      (fun _ _ _ _ _ hst h _ => hst.recording h) h ⟨r, hr, hrec⟩
  rcases (outline site).step_cases ((outline site).sound h) i with hs | ⟨a, rfl, _, hs⟩ |
    ⟨out, o, rfl, ho, hg, hs⟩ | ⟨b, rfl, hs⟩
  · exact absurd (hs ▸ hgap) hexit
  · rw [hs] at hexit
    exact absurd ((arrive_gapped h a id).2 hgap) hexit
  · rw [hs] at hexit
    have hst := perform_does hg out
    generalize hperform : (perform o out c.state).2 = t at hst
    rw [show ((engine site).perform o out c.state).2 = t from hperform] at hexit
    cases hst with
    | take n j job hloop hs hj hq => exact absurd ((hloop.coverage id).gapped hrec hgap) hexit
    | commit n w hg =>
      rcases hg.gap_kept hrec hgap (c.state.tick n).clock with hkept | ⟨at', rfl⟩
      · exact absurd hkept hexit
      · exact ⟨at', out, rfl, ho⟩
    | _ => exact absurd hgap hexit
  · exact absurd (hs ▸ hgap) hexit

/-- A gap opens with a commit, and not with one that opens or plans an epoch. -/
theorem Reached.gap_opens (h : Reached site c) (i : Choice) {id : RunId}
    (hbefore : ¬ c.state.journal.Gapped id)
    (hgap : ((engine site).step c i).state.journal.Gapped id) :
    ((engine site).step c i).state.mem = ((engine site).step c i).state.journal ∧
    ∃ w b a rest, ((engine site).step c i).state.log = .committed w b a :: rest ∧
      w ≠ .run id .nextEpoch ∧ ∀ captures, w ≠ .run id (.planned captures) := by
  rcases (outline site).step_cases ((outline site).sound h) i with hs | ⟨a, rfl, _, hs⟩ |
    ⟨out, o, rfl, ho, hg, hs⟩ | ⟨b, rfl, hs⟩
  · exact absurd (hs ▸ hgap) hbefore
  · rw [hs] at hgap
    exact absurd ((arrive_gapped h a id).1 hgap) hbefore
  · rw [hs] at hgap ⊢
    have hst := perform_does hg out
    generalize hperform : (perform o out c.state).2 = t at hst
    rw [show ((engine site).perform o out c.state).2 = t from hperform] at hgap ⊢
    cases hst with
    | take n j job hloop hopen hj hq =>
      exact absurd ((Reached.gapped_iff h hopen id).1 hgap) hbefore
    | commit n w hg =>
      -- An epoch is opened and planned on a run that memory and journal agree on.
      have hsame : ∀ write : RunWrite, (∀ r, RunGuard c.thread.phase c.state id r write →
          c.state.journal.runs[id]? = some r) → (∀ clock r, (write.apply clock r).recording =
          r.recording ∧ (write.apply clock r).captureCoverage = r.captureCoverage) →
          w ≠ .run id write := by
        rintro write hjournal hcov rfl
        obtain ⟨r', hr', hrec', hgap'⟩ := hgap
        obtain ⟨r, hr, rfl⟩ : ∃ r, c.state.mem.runs[id]? = some r ∧
            write.apply (c.state.tick n).clock r = r' := by
          have hr' : (c.state.mem.modifyRun id _).runs[id]? = some r' := hr'
          simpa [State.modifyRun_run] using hr'
        rw [(hcov _ r).1] at hrec'
        rw [(hcov _ r).2] at hgap'
        exact hbefore ⟨r, hjournal r (hg.1 r hr), hrec', hgap'⟩
      refine ⟨rfl, w, _, _, _, rfl, hsame _ (fun _ hg => hg.2) fun _ _ => ⟨rfl, rfl⟩,
        fun captures => hsame _ (fun _ hg => hg.2.1) fun _ _ => ⟨rfl, rfl⟩⟩
    | _ => exact absurd hgap hbefore
  · rw [hs] at hgap
    exact absurd hgap hbefore

/-! ## Epochs -/

/-- The run is in capture epoch `e` or later. -/
def State.FromEpoch (d : State) (id : RunId) (e : ℕ) : Prop :=
  ∃ r, d.runs[id]? = some r ∧ e ≤ r.captureEpoch

/-- What happened to the run since the log was `old`, in epoch `e`: all documents that
were committed, and those there are now, are of that epoch or a later one. -/
structure Since (old : List Event) (id : RunId) (e : ℕ) (s : Shared) : Prop where
  mem : s.mem.FromEpoch id e
  journal : s.journal.FromEpoch id e
  log : ∃ new, s.log = new ++ old ∧ ∀ (w : Write) (before after : State),
    .committed w before after ∈ new → before.FromEpoch id e

namespace Since

variable {old : List Event} {id : RunId} {e : ℕ}

/-- The next event, if it is a commit, was made from the journal. -/
theorem push (h : Since old id e s) {event : Event}
    (hevent : ∀ w before after, event = .committed w before after → before = s.journal)
    (hlog : t.log = event :: s.log) : ∃ new, t.log = new ++ old ∧
      ∀ (w : Write) (before after : State), .committed w before after ∈ new →
        before.FromEpoch id e := by
  obtain ⟨new, hnew, hall⟩ := h.log
  refine ⟨event :: new, by rw [hlog, hnew, List.cons_append], fun w before after hmem => ?_⟩
  rcases List.mem_cons.1 hmem with heq | hmem
  · exact hevent w before after heq.symm ▸ h.journal
  · exact hall w before after hmem

theorem write (h : Since old id e s) (w : Write) (clock : Clock) :
    (w.apply clock s.mem).FromEpoch id e := by
  obtain ⟨r, hr, hle⟩ := h.mem
  obtain ⟨r', hr', he⟩ := @Write.run_apply clock s.mem w id r hr
  exact ⟨r', hr', hle.trans he.captureEpoch_le⟩

theorem does (h : Since old id e s) {o : Op} (hst : Does ph s o t) : Since old id e t := by
  cases hst with
  | wait => exact ⟨h.mem, h.journal, h.log⟩
  | update _ n w hg hw => exact ⟨h.write w _, h.journal, h.log⟩
  | commit n w hg =>
    exact ⟨h.write w _, h.write w _, h.push (by rintro _ _ _ ⟨⟩; rfl) rfl⟩
  | failCommit n w code hg => exact ⟨h.write w _, h.journal, h.push (by simp) rfl⟩
  | take => exact ⟨h.mem, h.mem, h.push (by simp) rfl⟩
  | failTake => exact ⟨h.mem, h.journal, h.push (by simp) rfl⟩
  | call => exact ⟨h.mem, h.journal, h.push (by simp) rfl⟩

theorem serve (h : Since old id e s) (hst : Serve s t) : Since old id e t := by
  have hmem : t.mem.FromEpoch id e := by
    obtain ⟨_, hr, hle⟩ := h.mem
    obtain ⟨_, hr', _, _, _, _, _, rfl, -⟩ := hst.run hr
    exact ⟨_, hr', hle⟩
  exact ⟨hmem, (both_of_saved (P := fun d => d.FromEpoch id e) hmem h.journal hst.journal_eq).2,
    hst.log_eq ▸ h.log⟩

theorem along {c' : Agent} (hc : Reaches site ok c) (h : Since old id e c.state)
    (hpath : (engine site).Path always c c') :
    Since old id e c'.state :=
  (outline site).along (J := Since old id e)
    (fun _ a _ hinv hJ => arrive_keeps (fun _ _ _ hst h => h.serve hst) hinv hJ a)
    (fun _ out _ _ _ _ hg hJ => hJ.does (perform_does hg out))
    (fun _ _ _ _ hJ => ⟨hJ.journal, hJ.journal, hJ.push (by simp) rfl⟩)
    ((outline site).sound hc) h hpath

/-- An epoch that was planned since then is a later one, unless its planning was going on
at the time. -/
theorem planned (h : Since old id e s) {run : Run} {before : List Event}
    (hlog : s.log = .called (.captureControl run .arm) none :: before)
    (hplanned : Planned run before) (hid : run.id = id) {w : Write} {b a : State}
    {rest : List Event} (hold : old = .committed w b a :: rest)
    (hepoch : w ≠ .run id .nextEpoch) (hplan : ∀ captures, w ≠ .run id (.planned captures)) :
    e < run.captureEpoch := by
  obtain ⟨new, hnew, hall⟩ := h.log
  obtain ⟨_, _, b₁, a₁, _, _, _, hbefore, hlast, _, -⟩ := hplanned
  rw [hlog, hbefore, hold, hid] at hnew
  have hmem : Event.committed (.run id .nextEpoch) b₁ a₁ ∈ new := by
    rcases new with _ | ⟨_, _ | ⟨_, _ | ⟨_, _ | ⟨_, new⟩⟩⟩⟩
    · cases hnew
    · simp only [List.cons_append, List.nil_append, List.cons.injEq, Event.committed.injEq] at hnew
      exact absurd hnew.2.1.1.symm (hplan _)
    · simp at hnew
    · simp only [List.cons_append, List.nil_append, List.cons.injEq, Event.committed.injEq] at hnew
      exact absurd hnew.2.2.2.1.1.symm hepoch
    · simp only [List.cons_append, List.cons.injEq] at hnew
      simp [← hnew.2.2.2.1]
  obtain ⟨_, hr, _⟩ := hall _ _ _ hmem
  rw [hid] at hlast
  cases hlast.symm.trans hr
  omega

end Since

/-- **Gaps in the capture.**  Let the coverage of a run that requires capture become
incomplete in the journal.  Whatever happens from then on, the only step that takes it
out of `incomplete` and `closed-incomplete` is the commit right after a successful arm
call for the run, of an epoch beyond the one the gap belongs to. -/
theorem coverage_gap {site : Site} {c₀ c : Agent} (h : Reached site c₀) (i₀ i : Choice)
    {id : RunId} {r : Run} (hbefore : ¬ c₀.state.journal.Gapped id)
    (hr : ((engine site).step c₀ i₀).state.journal.runs[id]? = some r)
    (hrec : r.recording = true) (hincomplete : r.captureCoverage.isIncomplete = true)
    (hpath : (engine site).Path always ((engine site).step c₀ i₀) c)
    (hgap : c.state.journal.Gapped id)
    (hexit : ¬ ((engine site).step c i).state.journal.Gapped id) :
    ∃ at' out run before, i = .work out ∧
      c.thread.nextOp = some (.commit (.run id (.armed at'))) ∧
      c.state.log = .called (.captureControl run .arm) none :: before ∧ run.id = id ∧
      r.captureEpoch < run.captureEpoch := by
  have h₁ : Reached site ((engine site).step c₀ i₀) := .step _ h trivial
  have hc : Reached site c := h₁.trans hpath
  obtain ⟨hmem, _, _, _, _, hlog, hepoch, hplan⟩ :=
    Reached.gap_opens h i₀ hbefore ⟨r, hr, hrec, hincomplete⟩
  have hsince : Since ((engine site).step c₀ i₀).state.log id r.captureEpoch c.state :=
    Since.along h₁ ⟨⟨r, hmem ▸ hr, le_rfl⟩, ⟨r, hr, le_rfl⟩, [], rfl, by simp⟩ hpath
  obtain ⟨at', out, rfl, ho⟩ := Reached.gap_step hc i hgap hexit
  obtain ⟨x, hx, -⟩ := mem_of_journal (P := fun d => d.Recording id)
    (fun _ _ _ hst => hst.recording) (fun _ _ _ _ _ hst h _ => hst.recording h) hc
    (by obtain ⟨r, hr, hrec, -⟩ := hgap; exact ⟨r, hr, hrec⟩)
  obtain ⟨hg, -⟩ := Reached.guard hc ho
  obtain ⟨-, -, run, before, hbefore, hid, -, hplanned⟩ := hg x hx
  exact ⟨at', out, run, before, rfl, ho, hbefore, hid,
    hsince.planned hbefore hplanned hid hlog hepoch hplan⟩

/-! ## A gap that opens and ends -/

/-- A stop whose capture worker has lost something, up to the commit that says so. -/
def lossyStop : List Choice :=
  Sample.up ++ Sample.start "a" "j1" "start-one" :: Sample.working 32 ++
    Sample.operate "a" "stop" "1" "j2" "stop-one" :: Sample.working 5 ++
    [.work { reply := { observations := [{ state := "lost" }] } }]

/-- The run is resumed, up to the commit that its new epoch is armed. -/
def resumption : List Choice :=
  Sample.working 4 ++ Sample.operate "a" "resume" "2" "j3" "resume-one" :: Sample.working 16

theorem State.gapped_of_map {d : State} {id : RunId} {v : Coverage}
    (h : d.runs[id]?.map (fun r => (r.recording, r.captureCoverage)) = some (true, v)) :
    d.Gapped id ↔ v.isIncomplete = true := by
  obtain ⟨r, hr, heq⟩ := Option.map_eq_some_iff.1 h
  simp only [Prod.mk.injEq] at heq
  constructor
  · rintro ⟨r', hr', -, hgap⟩
    cases hr.symm.trans hr'
    exact heq.2 ▸ hgap
  · exact fun hv => ⟨r, hr, heq.1, heq.2 ▸ hv⟩

/-- Before the gap, and where it ends. -/
def beforeGap : Agent := (engine (Sample.wired true)).run initial lossyStop
def endOfGap : Agent :=
  (engine (Sample.wired true)).run ((engine (Sample.wired true)).step beforeGap (.work {}))
    resumption

theorem coverage_gap_resumption :
    ∃ run before, endOfGap.state.log = .called (.captureControl run .arm) none :: before ∧
      1 < run.captureEpoch := by
  have hbefore : beforeGap.state.journal.runs["a"]?.map
      (fun r => (r.recording, r.captureCoverage)) = some (true, .recording) := by decide
  have hafter : ((engine (Sample.wired true)).step beforeGap (.work {})).state.journal.runs[
      "a"]?.map (fun r => (r.recording, r.captureCoverage, r.captureEpoch)) =
        some (true, .closedIncomplete, 1) := by decide
  have hgap : endOfGap.state.journal.runs["a"]?.map
      (fun r => (r.recording, r.captureCoverage)) = some (true, .closedIncomplete) := by
    decide
  have hexit : ((engine (Sample.wired true)).step endOfGap (.work {})).state.journal.runs["a"]?.map
      (fun r => (r.recording, r.captureCoverage)) = some (true, .armed) := by
    decide
  obtain ⟨_, hr, heq⟩ := Option.map_eq_some_iff.1 hafter
  simp only [Prod.mk.injEq] at heq
  have hreached : Reached (Sample.wired true) beforeGap := path_run initial lossyStop
  have hpath : (engine (Sample.wired true)).Path always
      ((engine (Sample.wired true)).step beforeGap (.work {})) endOfGap := path_run _ resumption
  obtain ⟨-, -, run, before, -, -, hlog, -, _⟩ :=
    coverage_gap hreached (.work {}) (.work {})
      (fun h => by simpa [Coverage.isIncomplete] using (State.gapped_of_map hbefore).1 h) hr heq.1
      (by rw [heq.2.1]; rfl) hpath ((State.gapped_of_map hgap).2 rfl)
      (fun h => by simpa [Coverage.isIncomplete] using (State.gapped_of_map hexit).1 h)
  exact ⟨run, before, hlog, by omega⟩

/-! ## Segments as they are listed -/

/-- What is found of a capture: the regular files with their extensions, the files of the manifest,
the numbers of its segments, and whether reading them broke off. -/
structure OnDisk where
  files : List (String × String)
  indexed : List String
  segments : List String
  broken : Bool

inductive Artifact
  | unindexed (c : Capture) (file : String)
  | segment (c : Capture) (id : String) (run : RunId) (coverage : Coverage)
  | unavailable (c : Capture)

/-- `capture::artifacts`.  The label of a segment is the coverage that the run has now. -/
def artifacts (disk : Capture → OnDisk) (run : Run) : List Artifact :=
  (run.captureHistory ++ run.captures).flatMap fun c =>
    let d := disk c
    let loose := d.files.filter fun f => f.2 == ".partial" ||
      f.2 == ".pcapng" && !d.indexed.contains f.1
    loose.map (.unindexed c ·.1) ++
      d.segments.map (fun n => .segment c (c.id ++ "-" ++ n) run.id run.captureCoverage) ++
      if d.broken then [.unavailable c] else []

variable {disk : Capture → OnDisk} {run : Run} {d : Capture} {name : String} {i : RunId}
  {v : Coverage}

theorem coverage_of_artifacts (h : .segment d name i v ∈ artifacts disk run) :
    v = run.captureCoverage := by
  simp only [artifacts, List.mem_flatMap, List.mem_append, List.mem_map] at h
  obtain ⟨c, -, (⟨_, -, heq⟩ | ⟨_, -, heq⟩) | h⟩ := h
  · cases heq
  · cases heq
    rfl
  · split at h <;> simp at h

/-- The step does not commit that the run is armed. -/
def Unarmed (id : RunId) : StepCondition := fun c _ =>
  ∀ at', c.thread.nextOp ≠ some (.commit (.run id (.armed at')))

/-- **Gaps stay listed.**  Once the journal records a gap of a run, whatever happens until a later
epoch of it is armed, a serving agent lists every segment of the run, of any epoch, with a gap. -/
theorem artifacts_gapped {c₀ : Agent} {id : RunId} (h : Reached site c₀)
    (hgap : c₀.state.journal.Gapped id) (hpath : (engine site).Path (Unarmed id) c₀ c)
    (hopen : c.state.stopping = false) (hrun : c.state.mem.runs[id]? = some run)
    (hlisted : .segment d name i v ∈ artifacts disk run) : v.isIncomplete = true := by
  have hkept : Reached site c ∧ c.state.journal.Gapped id := by
    clear hopen hrun
    induction hpath with
    | refl => exact ⟨h, hgap⟩
    | step i _ hunarmed ih =>
      refine ⟨.step i ih.1 trivial, ?_⟩
      by_contra hexit
      obtain ⟨at', _, -, ho⟩ := Reached.gap_step ih.1 i ih.2 hexit
      exact hunarmed at' ho
  obtain ⟨r, hr, -, hincomplete⟩ := (Reached.gapped_iff hkept.1 hopen id).2 hkept.2
  cases hr.symm.trans hrun
  rw [coverage_of_artifacts hlisted]
  exact hincomplete

theorem lossyStop_artifacts : ∃ disk run d name v,
    .segment d name run.id v ∈ artifacts disk run ∧ v.isIncomplete = true := by
  let c := (engine (Sample.wired true)).step beforeGap (.work {})
  have hall : c.state.stopping = false ∧ c.state.mem.runs["a"]?.map (·.captures.length) = some 1 ∧
      c.state.journal.runs["a"]?.map (fun r => (r.recording, r.captureCoverage)) =
        some (true, .closedIncomplete) := by decide
  obtain ⟨hopen, hcaptures, hgap⟩ := hall
  obtain ⟨run, hrun, hlength⟩ := Option.map_eq_some_iff.1 hcaptures
  obtain ⟨d, hd⟩ := List.length_eq_one_iff.1 hlength
  have hlisted : .segment d (d.id ++ "-" ++ "0") run.id run.captureCoverage ∈
      artifacts (fun _ => ⟨[], [], ["0"], false⟩) run := by simp [artifacts, hd]
  exact ⟨_, run, d, _, _, hlisted, artifacts_gapped (.step _ (path_run initial lossyStop) trivial)
    ((State.gapped_of_map hgap).2 rfl) .refl hopen hrun hlisted⟩

end Graphlab.Runtime
