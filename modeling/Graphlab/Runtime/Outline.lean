import Graphlab.Runtime.Worker
import Graphlab.Runtime.Boot

/-!
# The proof outline of the agent

The verified programs and the preserved invariant make an `Outline` of `engine`.
Properties of the agent are derived from it: every reachable state satisfies `Inv`,
every operation meets `Guard`, and a further invariant only has to be checked against
requests, guarded operations and restarts (`Reached.invariant`).

## Main results

* `outline` — the outline.
* `Reached.inv`, `Reached.guard`, `Reached.loop`, `Reached.ready` — what holds where.
* `Does` — what a guarded operation does; `perform_does`.
* `Reached.invariant` — the rule for invariants.
* `journal_keeps` — the rule for what the journal never loses.
* `Reached.inStep` — the rule for what memory and journal agree on.
-/

namespace Graphlab.Runtime

open Lib

/-- The outline of the agent. -/
def outline (site : Site) : Outline (engine site) {} where
  inv := Inv
  ready := Ready
  loop := Loop
  guar := Guard
  inv_init :=
    have empty : Sound {} [] {} := by constructor <;> simp
    ⟨empty, empty, fun _ => rfl⟩
  inv_request a s h := h.serve (arrive_serve site a s)
  inv_restart b _ h := h.reboot b
  inv_perform _ _ out _ h hg := h.perform hg out
  ready_loop _ h := h.booting.loop
  loop_request a s hinv h :=
    @Loop.stable site s _ hinv ⟨a, rfl⟩ (hinv.serve (arrive_serve site a s)) h
  construct_wp b s _ := construct_wp b s
  body_wp _ _ h := work_wp h

variable {site : Site} {ok : StepCondition} {c : Agent}

theorem Reached.inv (h : Reaches site ok c) : Inv c.state := ((outline site).sound h).1

theorem Reached.guard (h : Reaches site ok c) {o : Op} (ho : c.thread.nextOp = some o) :
    Guard c.thread.phase c.state o :=
  (outline site).guard ((outline site).sound h) ho

theorem Reached.loop (h : Reaches site ok c) (hidle : c.thread = .idle) : Loop c.state := by
  have hcov := ((outline site).sound h).2
  rw [hidle] at hcov
  exact hcov

/-- The step that ends the constructor. -/
theorem Reached.ready (h : Reaches site ok c) {i : Choice}
    (hi : ¬ c.thread.Serves ∨ ∃ b, i = .restart b)
    (hserves : ((engine site).step c i).thread.Serves) : Ready ((engine site).step c i).state :=
  (outline site).constructed ((outline site).sound h) hi hserves

/-! ## Guarded operations -/

/-- The regions that may end without `save`: those of `Write.unsaved`, and the storing
of samples, which the telemetry database can cut short. -/
def Write.light : Write → Bool
  | .run _ (.samples _ _) => true
  | w => w.unsaved

/-- What a guarded operation does to the state. -/
inductive Does (ph : Phase) (s : Shared) : Op → Shared → Prop
  | wait (o : Op) (n : ℕ) : Does ph s o (s.tick n)
  | update (o : Op) (n : ℕ) (w : Write) (hg : WriteGuard ph s w) (hw : w.light = true) :
      Does ph s o { s.tick n with mem := w.apply (s.tick n).clock s.mem }
  | commit (n : ℕ) (w : Write) (hg : Guard ph s (.commit w)) :
      Does ph s (.commit w) ((s.tick n).commit w none).2
  | failCommit (n : ℕ) (w : Write) (code : String) (hg : Guard ph s (.commit w)) :
      Does ph s (.commit w) ((s.tick n).commit w (some code)).2
  | take (n : ℕ) (j : JobId) (job : Job) (hloop : Loop s) (hs : s.stopping = false)
      (hj : s.mem.jobs[j]? = some job) (hq : job.state = .queued) :
      Does ph s .take
        { s.tick n with
          mem := s.mem.modifyJob j fun j => { j with state := .running }
          journal := s.mem.modifyJob j fun j => { j with state := .running }
          log := .taken j :: s.log }
  | failTake (n : ℕ) (j : JobId) (job : Job) (hloop : Loop s) (hs : s.stopping = false)
      (hj : s.mem.jobs[j]? = some job) (hq : job.state = .queued) :
      Does ph s .take
        { s.tick n with
          mem := s.mem.modifyJob j fun j => { j with state := .running }
          stopping := true
          log := .takeFailed j :: s.log }
  | call (n : ℕ) (c : Call) (out : Outcome) (hg : CallGuard s c) :
      Does ph s (.call c) ((s.tick n).call c out).2

theorem perform_does {ph : Phase} {s : Shared} {o : Op} (hg : Guard ph s o) (out : Outcome) :
    Does ph s o (perform o out s).2 := by
  cases o with
  | read => exact .wait _ _
  | cancelled => exact .wait _ _
  | clock => exact .wait _ _
  | update w =>
    refine .update _ _ w hg.1 ?_
    unfold Write.light
    split
    · rfl
    · exact hg.2
  | call c => exact .call _ c out hg
  | commit w =>
    simp only [perform, performCommit]
    split
    · next cut hcut =>
        obtain ⟨_, -, hcut⟩ := Option.bind_eq_some_iff.1 hcut
        obtain ⟨_, _, _, -, rfl⟩ := Write.aborted_some hcut
        exact .update _ _ _ (fun _ _ => trivial) rfl
    · cases out.error with
      | none => exact .commit _ w hg
      | some code => exact .failCommit _ w code hg
  | take =>
    simp only [perform, performTake]
    split
    · exact .wait _ _
    next hs =>
    have hs : s.stopping = false := Bool.eq_false_iff.2 hs
    split
    · exact .wait _ _
    next j hj =>
    obtain ⟨job, hj, hq⟩ := Shared.queuedJob_some hj
    cases out.error with
    | none => exact .take _ j job hg.2 hs hj hq
    | some => exact .failTake _ j job hg.2 hs hj hq

/-- What an operation saved is in the journal, or nothing was saved. -/
theorem Does.journal_eq {ph : Phase} {s t : Shared} {o : Op} (h : Does ph s o t) :
    t.journal = t.mem ∨ t.journal = s.journal := by
  cases h with
  | commit => exact .inl rfl
  | take => exact .inl rfl
  | _ => exact .inr rfl

/-- An operation leaves memory, writes a guarded region there or takes a job. -/
theorem Does.mem_of {P : State → Prop} {ph : Phase} {s t : Shared} {o : Op} (h : Does ph s o t)
    (hsame : P s.mem) (hregion : ∀ w clock, WriteGuard ph s w → P (w.apply clock s.mem))
    (htake : ∀ (j : JobId) (job : Job), s.mem.jobs[j]? = some job → job.state = .queued →
      P (s.mem.modifyJob j fun j => { j with state := .running })) : P t.mem := by
  cases h with
  | wait => exact hsame
  | call => exact hsame
  | update _ n w hg hw => exact hregion w _ hg
  | commit n w hg => exact hregion w _ hg.1
  | failCommit n w code hg => exact hregion w _ hg.1
  | take n j job hloop hs hj hq => exact htake j job hj hq
  | failTake n j job hloop hs hj hq => exact htake j job hj hq

/-- What each change of a request keeps, the request keeps. -/
theorem arrive_keeps {J : Shared → Prop} (hserve : ∀ s t, Inv s → Serve s t → J s → J t)
    {s : Shared} (hinv : Inv s) (hJ : J s) (a : Arrival) : J (arrive site a s) :=
  (stable_of_serve hserve : (served site).Stable J) hinv ⟨a, rfl⟩
    (hinv.serve (arrive_serve site a s)) hJ

/-- What requests, guarded operations and restarts keep holds of every reachable state. -/
theorem Reached.invariant {J : Shared → Prop} (h0 : J {})
    (hserve : ∀ s t, Inv s → Serve s t → J s → J t)
    (hop : ∀ ph s o t, Inv s → Does ph s o t → J s → J t)
    (hre : ∀ b s, Inv s → J s → J (reboot b s)) (h : Reaches site ok c) : J c.state :=
  (outline site).invariant h0 (fun _ a _ hinv hJ => arrive_keeps hserve hinv hJ a)
    (fun _ out _ _ _ hinv hg hJ => hop _ _ _ _ hinv (perform_does hg out) hJ)
    (fun _ _ _ hinv hJ => hre _ _ hinv hJ) h

/-! ## Memory and journal -/

/-- What requests and guarded operations keep of memory holds of both documents. -/
theorem Reached.both {P : State → Prop} (h0 : P {})
    (hserve : ∀ s t, Inv s → Serve s t → P s.mem → P t.mem)
    (hop : ∀ ph s o t, Inv s → Does ph s o t → P s.mem → P t.mem) (h : Reaches site ok c) :
    P c.state.mem ∧ P c.state.journal :=
  Reached.invariant (J := fun s => P s.mem ∧ P s.journal) ⟨h0, h0⟩
    (fun s t hinv hst h => both_of_saved (hserve s t hinv hst h.1) h.2 hst.journal_eq)
    (fun ph s o t hinv hst h => both_of_saved (hop ph s o t hinv hst h.1) h.2 hst.journal_eq)
    (fun _ _ _ h => ⟨h.2, h.2⟩) h

/-- What memory does not lose while the journal has it too, memory has if the journal
does: it is never behind. -/
theorem mem_of_journal {P : State → Prop}
    (hserve : ∀ s t, Inv s → Serve s t → P s.mem → P t.mem)
    (hdoes : ∀ ph s o t, Inv s → Does ph s o t → P s.mem → P s.journal → P t.mem)
    (h : Reaches site ok c) : P c.state.journal → P c.state.mem := by
  have hnext : ∀ {s t : Shared}, (P s.mem → P s.journal → P t.mem) →
      t.journal = t.mem ∨ t.journal = s.journal → (P s.journal → P s.mem) →
      (P t.journal → P t.mem) := by
    rintro s t hkeep (hj | hj) hcross ht
    · exact hj ▸ ht
    · exact hkeep (hcross (hj ▸ ht)) (hj ▸ ht)
  exact Reached.invariant (J := fun s => P s.journal → P s.mem) id
    (fun s t hinv hst => hnext (fun h _ => hserve s t hinv hst h) hst.journal_eq)
    (fun ph s o t hinv hst => hnext (hdoes ph s o t hinv hst) hst.journal_eq)
    (fun _ _ _ _ => id) h

/-- The journal never loses it either: what is saved next has it as well. -/
theorem journal_keeps {P : State → Prop}
    (hserve : ∀ s t, Inv s → Serve s t → P s.mem → P t.mem)
    (hdoes : ∀ ph s o t, Inv s → Does ph s o t → P s.mem → P s.journal → P t.mem)
    (h : Reaches site ok c) {c' : Agent} (hpath : (engine site).Path Supervised.always c c')
    (hP : P c.state.journal) : P c'.state.journal := by
  refine ((outline site).along (J := fun s => P s.mem ∧ P s.journal) ?_ ?_ ?_
    ((outline site).sound h) ⟨mem_of_journal hserve hdoes h hP, hP⟩ hpath).2
  · exact fun c a _ hinv hJ => arrive_keeps (J := fun s => P s.mem ∧ P s.journal)
      (fun s t hinv hst h => both_of_saved (hserve s t hinv hst h.1) h.2 hst.journal_eq) hinv hJ a
  · intro c out o _ _ hinv hg hJ
    have hst := perform_does hg out
    exact both_of_saved (hdoes _ _ _ _ hinv hst hJ.1 hJ.2) hJ.2 hst.journal_eq
  · exact fun c b _ _ hJ => ⟨hJ.2, hJ.2⟩

/-- While the agent serves, memory and journal have the same `f` of each run. -/
def InStep {α : Type} (f : Run → α) (s : Shared) : Prop :=
  s.stopping = false → ∀ id : RunId, s.mem.runs[id]?.map f = s.journal.runs[id]?.map f

theorem Write.light_apply {α : Type} {f : Run → α}
    (hf : ∀ (id : RunId) (w : RunWrite) (clock : Clock) (r : Run), (Write.run id w).light = true →
      f (w.apply clock r) = f r) {w : Write} (hw : w.light = true) (clock : Clock) (d : State)
    (id : RunId) : (w.apply clock d).runs[id]?.map f = d.runs[id]?.map f := by
  cases w with
  | run i write =>
    rw [show ((Write.run i write).apply clock d).runs[id]? = _ from State.modifyRun_run ..]
    cases d.runs[id]? with
    | none => rfl
    | some r =>
      by_cases h : i = id
      · simpa [h] using hf i write clock r hw
      · simp [h]
  | _ => simp [light, unsaved] at hw

/-- What only saved regions change, memory and journal agree on. -/
theorem Reached.inStep {α : Type} {f : Run → α}
    (hf : ∀ (id : RunId) (w : RunWrite) (clock : Clock) (r : Run), (Write.run id w).light = true →
      f (w.apply clock r) = f r) (h : Reaches site ok c) : InStep f c.state := by
  have hsaved : ∀ {t : Shared}, t.journal = t.mem ∨ t.stopping = true → InStep f t := by
    rintro t (hj | hs) hopen id
    · rw [hj]
    · simp [hs] at hopen
  refine Reached.invariant (J := InStep f) (hsaved (.inl rfl)) (fun _ _ _ hst _ => hsaved hst.saved)
    (fun ph s o t _ hst hJ => ?_) (fun _ _ _ _ => hsaved (.inl rfl)) h
  cases hst with
  | wait => exact hJ
  | call => exact hJ
  | commit => exact hsaved (.inl rfl)
  | take => exact hsaved (.inl rfl)
  | failCommit => exact hsaved (.inr rfl)
  | failTake => exact hsaved (.inr rfl)
  | update _ n w hg hw => exact fun hs id => (Write.light_apply hf hw _ _ id).trans (hJ hs id)

end Graphlab.Runtime
