import Graphlab.Runtime.Ledger

/-!
# Resources

A start records its intent to create a resource before it creates it, and `cleanup`
marks a resource removed after it has removed it, last created first.  So whatever the
backend does and wherever the agent crashes, a live resource is known to memory and to
the journal (`Backed`), and a run whose entries are all marked has nothing live.

## Main results

* `Backed` — live resources have entries that are not marked removed.
* `live_resources` — the write-ahead discipline, of every reachable state.
-/

namespace Graphlab.Runtime

open Lib Supervised

variable {s t : Shared}

/-- Each live resource has an entry that is not marked removed. -/
def Backed (s : Shared) : Prop :=
  ∀ ⦃id : RunId⦄ ⦃key : String⦄, (id, key) ∈ s.world.live →
    Holds s.mem id key ∧ Holds s.journal id key

/-! ## Steps -/

/-- Only `prepare` creates a resource. -/
theorem Call.effect_live {c : Call} {out : Outcome} {w : World} {p : RunId × String}
    (h : p ∈ (c.effect out w).live) :
    p ∈ w.live ∨ ∃ run resource, c = .prepare run resource ∧ p = (run.id, resource.key) := by
  cases c with
  | prepare run resource =>
    simp only [effect] at h
    split at h
    · rcases Finset.mem_insert.1 h with rfl | h
      · exact .inr ⟨run, resource, rfl, rfl⟩
      · exact .inl h
    · exact .inl h
  | remove =>
    simp only [effect] at h
    split at h
    · exact .inl (Finset.mem_of_mem_erase h)
    · exact .inl h
  | captureControl run operation =>
    cases operation <;> simp only [effect] at h <;> (try split at h) <;> exact .inl h
  | fault run f action =>
    cases action <;> simp only [effect] at h <;> split at h <;> exact .inl h
  | _ => exact .inl h

/-- An entry stays when an element of the list is changed, as long as the change is not
to it or leaves it alone. -/
theorem exists_mem_modify {l : List Resource} {x : Resource} (hx : x ∈ l) (k : ℕ)
    {f : Resource → Resource} {P : Resource → Prop} (hP : P x)
    (hf : l[k]? = some x → P (f x)) : ∃ y ∈ l.modify k f, P y := by
  obtain ⟨i, hi⟩ := List.mem_iff_getElem?.1 hx
  have hget : (l.modify k f)[i]? = some (if k = i then f x else x) := by
    rw [List.getElem?_modify, hi]
    by_cases h : k = i <;> simp [h]
  refine ⟨_, List.mem_of_getElem? hget, ?_⟩
  split
  · next h => exact hf (h ▸ hi)
  · exact hP

variable {ph : Phase} {j : JobId}

/-- A region keeps the entry of a live resource. -/
theorem WriteGuard.holds {w : Write} (hg : WriteGuard ph s w) {id : RunId} {key : String}
    (hlive : (id, key) ∈ s.world.live) (h : Holds s.mem id key) (clock : Clock) :
    Holds (w.apply clock s.mem) id key := by
  obtain ⟨r, hr, x, hx, rfl, hne⟩ := h
  obtain ⟨r', hr', he⟩ := @Write.run_apply clock s.mem w _ _ hr
  refine ⟨r', hr', ?_⟩
  cases he with
  | same => exact ⟨x, hx, rfl, hne⟩
  | finished => exact ⟨x, hx, rfl, hne⟩
  | failed => exact ⟨x, hx, rfl, hne⟩
  | telemetryError => exact ⟨x, hx, rfl, hne⟩
  | faultDone => exact ⟨x, hx, rfl, hne⟩
  | interrupted => exact ⟨x, hx, rfl, hne⟩
  | faultBegin job i hi hid =>
    obtain ⟨_, _, heq⟩ := Write.beginRun_eq clock r i
    rw [heq]
    exact ⟨x, hx, rfl, hne⟩
  | run write =>
    have hg := hg r hr
    rw [RunWrite.apply_resources]
    cases write with
    | intent => exact ⟨x, List.mem_append_left _ hx, rfl, hne⟩
    | prepared =>
      exact exists_mem_modify hx _ (P := fun y => y.key = x.key ∧ y.state ≠ .removed)
        ⟨rfl, hne⟩ fun _ => ⟨rfl, by simp⟩
    | removed =>
      exact exists_mem_modify hx _ (P := fun y => y.key = x.key ∧ y.state ≠ .removed)
        ⟨rfl, hne⟩ fun hindex => absurd hlive (hg x hindex)
    | _ => exact ⟨x, hx, rfl, hne⟩

namespace Backed

theorem does (h : Backed s) {o : Op} (hst : Does ph s o t) : Backed t := by
  cases hst with
  | wait => exact h
  | take => exact fun id key hlive => ⟨(h hlive).1, (h hlive).1⟩
  | failTake => exact h
  | update _ n w hg hw => exact fun id key hl => ⟨hg.holds hl (h hl).1 _, (h hl).2⟩
  | commit n w hg =>
    exact fun id key hl => ⟨hg.1.holds hl (h hl).1 _, hg.1.holds hl (h hl).1 _⟩
  | failCommit n w code hg => exact fun id key hl => ⟨hg.1.holds hl (h hl).1 _, (h hl).2⟩
  | call n c out hg =>
    intro id key hl
    rcases Call.effect_live hl with hl | ⟨run, resource, rfl, heq⟩
    · exact h hl
    · cases heq
      exact hg

theorem serve (h : Backed s) (hst : Serve s t) : Backed t := by
  intro id key hl
  rw [hst.world_eq] at hl
  have hmem : Holds t.mem id key := by
    obtain ⟨_, hr, hx⟩ := (h hl).1
    obtain ⟨_, hr', _, _, _, _, _, rfl, -⟩ := hst.run hr
    exact ⟨_, hr', hx⟩
  exact both_of_saved (P := fun d => Holds d id key) hmem (h hl).2 hst.journal_eq

end Backed

theorem Reached.backed {site : Site} {ok : StepCondition} {c : Agent} (h : Reaches site ok c) :
    Backed c.state :=
  Reached.invariant (J := Backed) (fun _ _ hl => by simp at hl) (fun _ _ _ hst h => h.serve hst)
    (fun _ _ _ _ _ hst h => h.does hst) (fun _ _ _ h _ _ hl => ⟨(h hl).2, (h hl).2⟩) h

/-! ## Jobs that take a run down -/

/-- The job is a start that was cancelled, or a destroy or recover that succeeded. -/
def Job.Dismantled (x : Job) : Prop :=
  x.operation = .start ∧ x.state = .cancelled ∨
  (x.operation = .destroy ∨ x.operation = .recover) ∧ x.state = .succeeded

/-- The run is destroyed, and none of its resources is live. -/
def Gone (s : Shared) (id : RunId) : Prop :=
  (∃ r, s.mem.runs[id]? = some r ∧ r.state = .destroyed) ∧ ∀ key, (id, key) ∉ s.world.live

/-- Nothing is live of a run whose entries are all marked. -/
theorem Backed.not_live (h : Backed s) {id : RunId} {r : Run} (hr : s.mem.runs[id]? = some r)
    (hdown : r.TornDown) (key : String) : (id, key) ∉ s.world.live := by
  intro hl
  obtain ⟨_, hr', x, hx, -, hne⟩ := (h hl).1
  cases hr.symm.trans hr'
  exact hne (hdown.resources x hx)

/-- A region that ends such a job finds its run taken down. -/
theorem WriteGuard.dismantles {w : Write} (hg : WriteGuard ph s w) (hb : Backed s) {x x' : Job}
    (hx : s.mem.jobs[j]? = some x) (he : Write.JobEffect j x w x') (hbefore : ¬ x.Dismantled)
    (hend : x'.Dismantled) (clock : Clock) :
    Gone { s with mem := w.apply clock s.mem } x'.runId := by
  cases he with
  | same => exact absurd hend hbefore
  | finished last observation =>
    obtain ⟨job, ho, _, hc⟩ := hg
    cases hx.symm.trans ho.job_eq
    have hdown : last.state = .destroyed ∧ last.TornDown := by
      rcases hend with ⟨-, h⟩ | ⟨h, -⟩
      · simp at h
      · exact hc.gone h
    obtain ⟨r', hr', he⟩ := @Write.run_apply clock _ (.finished j last observation) _ _ ho.run_eq
    refine ⟨⟨r', hr', ?_⟩, hb.not_live ho.run_eq hdown.2⟩
    cases he <;> exact hdown.1
  | startCancelled =>
    obtain ⟨job, r, ho, -, hstate, hdown⟩ := hg
    cases hx.symm.trans ho.job_eq
    obtain ⟨r', hr', he⟩ := @Write.run_apply clock _ (.startCancelled j) _ _ ho.run_eq
    refine ⟨⟨r', hr', ?_⟩, hb.not_live ho.run_eq hdown⟩
    cases he
    exact hstate
  | failed => simp [Job.Dismantled] at hend
  | faultCancelled hop => simp [Job.Dismantled, hop] at hend
  | faultGone hop => simp [Job.Dismantled, hop] at hend
  | faultDone =>
    obtain ⟨_, _, _, ho, -, hop⟩ := hg
    cases hx.symm.trans ho.job_eq
    rcases hop with ⟨hop, -⟩ | ⟨hop, -⟩ <;> simp [Job.Dismantled, hop] at hend
  | interrupted => simp [Job.Dismantled] at hend

theorem Does.dismantles {o : Op} (hst : Does ph s o t) (hb : Backed s)
    (hbefore : ∀ x, s.mem.jobs[j]? = some x → ¬ x.Dismantled) {x' : Job}
    (hx' : t.mem.jobs[j]? = some x') (hend : x'.Dismantled) : Gone t x'.runId := by
  have hregion : ∀ (w : Write) (clock : Clock), WriteGuard ph s w →
      (w.apply clock s.mem).jobs[j]? = some x' →
      Gone { s with mem := w.apply clock s.mem } x'.runId := by
    intro w clock hg hx'
    obtain ⟨x, hx, he⟩ := Write.job_of_apply hx'
    exact hg.dismantles hb hx he (hbefore x hx) hend clock
  have htake : ∀ i : JobId,
      (s.mem.modifyJob i fun j => { j with state := .running }).jobs[j]? ≠ some x' := by
    intro i hx'
    rw [State.modifyJob_job, Option.map_eq_some_iff] at hx'
    obtain ⟨x, hx, rfl⟩ := hx'
    by_cases hi : i = j
    · simp [hi, Job.Dismantled] at hend
    · rw [if_neg hi] at hend
      exact hbefore x hx hend
  cases hst with
  | wait => exact absurd hend (hbefore x' hx')
  | call => exact absurd hend (hbefore x' hx')
  | update _ n w hg hw => exact hregion w _ hg hx'
  | commit n w hg => exact hregion w _ hg.1 hx'
  | failCommit n w code hg => exact hregion w _ hg.1 hx'
  | take n i job hloop hs hi hq => exact absurd hx' (htake i)
  | failTake n i job hloop hs hi hq => exact absurd hx' (htake i)

/-- No request ends a job. -/
theorem Serve.not_dismantled (hst : Serve s t) (h : ∀ x, s.mem.jobs[j]? = some x → ¬ x.Dismantled) :
    ∀ x, t.mem.jobs[j]? = some x → ¬ x.Dismantled := by
  intro x' hx' hend
  rcases hst.job_of hx' with ⟨x, c, hx, rfl⟩ | ⟨-, -, hq⟩
  · exact h x hx hend
  · simp [Job.Dismantled, hq] at hend

/-- When such a job ends, its run is gone. -/
theorem Reached.dismantles {site : Site} {c : Agent} (h : Reached site c) (i : Choice)
    (hbefore : ∀ x, c.state.mem.jobs[j]? = some x → ¬ x.Dismantled) {x' : Job}
    (hx' : ((engine site).step c i).state.mem.jobs[j]? = some x') (hend : x'.Dismantled) :
    Gone ((engine site).step c i).state x'.runId := by
  have hcov := (outline site).sound h
  rcases (outline site).step_cases hcov i with hs | ⟨a, rfl, _, hs⟩ | ⟨out, o, rfl, ho, hg, hs⟩ |
    ⟨b, rfl, hs⟩
  · exact absurd hend (hbefore x' (hs ▸ hx'))
  · rw [hs] at hx'
    exact absurd hend (arrive_keeps (J := fun s => ∀ x, s.mem.jobs[j]? = some x → ¬ x.Dismantled)
      (fun _ _ _ hst h => hst.not_dismantled h) hcov.1 hbefore a x' hx')
  · rw [hs] at hx' ⊢
    exact (perform_does hg out).dismantles (Reached.backed h) hbefore hx' hend
  · -- The journal is read back: what had ended there had ended in memory.
    rw [hs] at hx'
    have hp : x'.pending = false := by
      rcases hend with ⟨-, h⟩ | ⟨-, h⟩ <;> simp [Job.pending, h]
    exact absurd hend (hbefore x' (Reached.kept h hx' hp))

/-- **Resources.**  In every reachable state each live resource has an entry, in memory
and in the journal, that is not marked removed; the worker is about to remove a resource
only when the journal has its entry, not marked, and all later ones marked removed; and
a step that ends a start as cancelled, or a destroy or recover as succeeded, leaves the
run destroyed and none of its resources live. -/
theorem live_resources {site : Site} {c : Agent} (h : Reached site c) :
    (∀ (id : RunId) (key : String), (id, key) ∈ c.state.world.live →
      Holds c.state.mem id key ∧ Holds c.state.journal id key) ∧
    (∀ (run : Run) (resource : Resource), c.thread.nextOp = some (.call (.remove run resource)) →
      ∃ r i, c.state.journal.runs[run.id]? = some r ∧ r.resources[i]? = some resource ∧
        resource.state ≠ .removed ∧
        ∀ (k : ℕ) (x : Resource), i < k → r.resources[k]? = some x → x.state = .removed) ∧
    (∀ (i : Choice) (j : JobId) (x' : Job),
      ((engine site).step c i).state.mem.jobs[j]? = some x' → x'.Dismantled →
      (∀ x, c.state.mem.jobs[j]? = some x → ¬ x.Dismantled) →
      Gone ((engine site).step c i).state x'.runId) :=
  ⟨fun _ _ hl => Reached.backed h hl, fun _ _ ho => Reached.guard h ho,
    fun i _ _ hx' hend hbefore => Reached.dismantles h i hbefore hx' hend⟩

/-- A start that has created its edge and has not recorded that yet. -/
def creation : List Choice := Sample.up ++ Sample.start "a" "j1" "start-one" :: Sample.working 9

theorem live_resources_creation :
    let c := (engine (Sample.wired true)).run initial creation
    ("a", "edge/link") ∈ c.state.world.live ∧ Holds c.state.mem "a" "edge/link" ∧
      Holds c.state.journal "a" "edge/link" :=
  have hlive : ("a", "edge/link") ∈
      ((engine (Sample.wired true)).run initial creation).state.world.live := by decide
  ⟨hlive, (@live_resources (Sample.wired true) _ (path_run initial creation)).1 _ _ hlive⟩

end Graphlab.Runtime
