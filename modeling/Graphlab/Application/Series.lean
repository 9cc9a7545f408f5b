import Graphlab.Application.Ingest

/-!
# Reports of a series over time

The documentation says that a report sequence cannot move backward and that counters cannot
decrease within an epoch.  Only the latest report of a series is compared, so a report of an epoch
that was left, of a workload that was replaced, or of a series whose latest row was deleted is
compared with nothing of its own.

A run carries along all reports that were accepted, deleted or not.  In a run the accepted reports
of every series, workload and epoch go forward if and only if those that were compared with nothing
of their own do.

## Main results

* `epoch_moves_backward` — a report that moves backward after its epoch was left.
* `accepted_ordered` — the runs in which reports go forward; `ingest_unchanged`.
* `tables_within` — the limits of the tables.
-/

namespace Graphlab.Application

open Lib

/-! ## Going forward -/

/-- Numbers go forward where both reports have them. -/
structure Report.Precedes (p r : Report) : Prop where
  sequence : p.sequence < r.sequence
  elapsedNs : p.elapsedNs < r.elapsedNs
  counters : ∀ k m n, p.counters k = some m → r.counters k = some n → m ≤ n
  latency : ∀ h ∈ p.latency, ∀ h' ∈ r.latency, h.Grows h'

section Precedes

variable {p q r : Report}

theorem Report.Follows.precedes (h : p.Follows r) : p.Precedes r where
  sequence := h.sequence
  elapsedNs := h.elapsedNs
  counters := by
    intro k m n hm hn
    have hgrows := h.counters k
    rw [hm, hn] at hgrows
    exact hgrows
  latency := by
    intro x hx y hy
    have hgrows := h.latency
    rw [Option.mem_def.mp hx, Option.mem_def.mp hy] at hgrows
    exact hgrows

/-- A report that follows one goes forward from all before it: it has the same numbers. -/
theorem Report.Precedes.follows (h : p.Precedes q) (h' : q.Follows r) : p.Precedes r where
  sequence := h.sequence.trans h'.sequence
  elapsedNs := h.elapsedNs.trans h'.elapsedNs
  counters := by
    intro k m n hm hn
    have hgrows := h'.counters k
    rw [hn] at hgrows
    cases hq : q.counters k with
    | none =>
      rw [hq] at hgrows
      cases hgrows
    | some l =>
      rw [hq] at hgrows
      exact (h.counters k m l hm hq).trans hgrows
  latency := by
    intro x hx z hz
    have hgrows := h'.latency
    rw [Option.mem_def.mp hz] at hgrows
    cases hq : q.latency with
    | none =>
      rw [hq] at hgrows
      cases hgrows
    | some y =>
      rw [hq] at hgrows
      exact (h.latency x hx y hq).trans hgrows

end Precedes

/-! ## Runs -/

/-- A report that was accepted. -/
structure Entry where
  run : String
  key : String
  instanceId : String
  report : Json
  deriving DecidableEq

namespace Entry

def parts (e : Entry) : Report := Report.ofJson e.report

/-- Two reports of one series, workload and epoch. -/
structure Alike (e e' : Entry) : Prop where
  run : e.run = e'.run
  key : e.key = e'.key
  instanceId : e.instanceId = e'.instanceId
  epoch : e.parts.epoch = e'.parts.epoch

end Entry

structure History where
  store : Store := {}
  /-- All that was accepted, newest first. -/
  accepted : List Entry := []

def entryOf (x : Submission × Body) : Entry :=
  ⟨x.1.run, x.1.key, x.1.instanceId, x.2.envelope.report⟩

def History.step (h : History) (c : Call) : History :=
  match c.ingest h.store with
  | (.ok (some x), s) => ⟨s, entryOf x :: h.accepted⟩
  | (_, s) => { h with store := s }

def History.after (h : History) (calls : List Call) : History := calls.foldl History.step h

/-- The accepted reports of every series, workload and epoch go forward. -/
def Forward (accepted : List Entry) : Prop :=
  accepted.Pairwise fun new old => old.Alike new → old.parts.Precedes new.parts

/-- The report is compared with none of its own workload and epoch. -/
def Resumes (s : Store) (e : Entry) : Prop :=
  ∀ row, s.find e.run e.key = some row →
    row.instanceId ≠ e.instanceId ∨ (Report.ofJson row.report).epoch ≠ e.parts.epoch

/-- A report that is compared with none of its own goes forward from all its own. -/
def Meets (h : History) (c : Call) : Prop :=
  ∀ x, (c.ingest h.store).1 = .ok (some x) → Resumes h.store (entryOf x) →
    ∀ old ∈ h.accepted, old.Alike (entryOf x) → old.parts.Precedes (entryOf x).parts

/-- All calls of a run meet the condition. -/
def AllMeet : History → List Call → Prop
  | _, [] => True
  | h, c :: calls => Meets h c ∧ AllMeet (h.step c) calls

/-! ## Calls -/

section Calls

variable {s s' : Store} {c : Call} {x : Submission} {body : Body} {e : Clock}

theorem execute_cons {op : Store → Store} {ops : List (Store → Store)} {fault : Option ℕ}
    {db : Database} (h : fault ≠ some 0) :
    execute (op :: ops) fault db =
      execute ops (fault.map Nat.pred) { db with store := op db.store } := by
  rcases fault with _ | _ | n
  · rfl
  · exact absurd rfl h
  · rfl

/-- What a rollback restores is kept, and all statements were run if none has failed. -/
theorem execute_spec (ops : List (Store → Store)) (fault : Option ℕ) (db : Database) :
    (execute ops fault db).2.saved = db.saved ∧
      ((execute ops fault db).1 = true →
        (execute ops fault db).2.store = ops.foldl (fun s op => op s) db.store) := by
  induction ops generalizing fault db with
  | nil => rcases fault with _ | _ | n <;> exact ⟨rfl, fun _ => rfl⟩
  | cons op ops ih =>
    by_cases h : fault = some 0
    · subst h
      exact ⟨rfl, fun h => by cases h⟩
    · rw [execute_cons h]
      exact ih (fault.map Nat.pred) { db with store := op db.store }

/-- A transaction runs all its statements or none. -/
theorem transact_cases (ops : List (Store → Store)) (fault : Option ℕ) (s : Store) :
    transact ops fault s = (.ok (), ops.foldl (fun s op => op s) s) ∨
      transact ops fault s = (.error "application_telemetry_database", s) := by
  obtain ⟨hsaved, hstore⟩ := execute_spec ops fault ⟨s, some s⟩
  unfold transact
  rcases h : execute ops fault ⟨s, some s⟩ with ⟨done, db⟩
  rw [h] at hsaved hstore
  cases done with
  | true =>
    left
    rw [← hstore rfl]
  | false =>
    right
    change (Except.error _, db.saved.getD db.store) = _
    rw [hsaved]
    rfl

/-- A report that is not accepted leaves the tables alone. -/
theorem ingestSeries_cases (s : Store) (x : Submission) (e : Clock) :
    ((∀ body, (ingestSeries s x e).1 ≠ .ok (some body)) ∧ (ingestSeries s x e).2 = s) ∨
    ∃ body, bodyOf s x e = .ok (some body) ∧
      ingestSeries s x e = (.ok (some body), (statements x body e).foldl (fun s op => op s) s) := by
  unfold ingestSeries
  split
  · exact .inl ⟨by simp, rfl⟩
  · exact .inl ⟨by simp, rfl⟩
  · next body hbody =>
      split
      · exact .inl ⟨by simp, rfl⟩
      · rcases transact_cases (statements x body e) e.fault s with h | h
        · rw [h]
          exact .inr ⟨body, hbody, rfl⟩
        · rw [h]
          exact .inl ⟨by simp, rfl⟩

theorem ingest_cases (s : Store) (c : Call) :
    ((∀ y, (c.ingest s).1 ≠ .ok (some y)) ∧ (c.ingest s).2 = s) ∨
    ∃ x body, c.submission = .ok x ∧ bodyOf s x c.clock = .ok (some body) ∧
      c.ingest s =
        (.ok (some (x, body)), (statements x body c.clock).foldl (fun s op => op s) s) := by
  unfold Call.ingest
  split
  · exact .inl ⟨by simp, rfl⟩
  · next x hx =>
      rcases ingestSeries_cases s x c.clock with ⟨hnone, hsame⟩ | ⟨body, hbody, h⟩
      · rcases h : ingestSeries s x c.clock with ⟨_ | _ | body, s'⟩
        · rw [h] at hsame
          exact .inl ⟨by simp, hsame⟩
        · rw [h] at hsame
          exact .inl ⟨by simp, hsame⟩
        · rw [h] at hnone
          exact absurd rfl (hnone body)
      · rw [h]
        exact .inr ⟨x, body, hx, hbody, rfl⟩

/-- The latest rows after a report was written: its own, and some of other series. -/
theorem mem_latest {row : Row}
    (h : row ∈ ((statements x body e).foldl (fun s op => op s) s).latest) :
    (row.run = x.run ∧ row.key = x.key ∧ row.body = body) ∨
      (row ∈ s.latest ∧ ¬(row.run = x.run ∧ row.key = x.key)) := by
  simp only [statements, List.foldl_cons, List.foldl_nil, Store.fitHistory, Store.fitLatest,
    Store.pruneLatest, Store.pruneHistory, Store.pruneTime, Store.insertHistory,
    Store.replaceLatest, fit] at h
  have h := mem_lastOn (mem_fitWithin h)
  rcases List.mem_cons.mp h with rfl | h
  · exact .inl ⟨rfl, rfl, rfl⟩
  · obtain ⟨hrow, hother⟩ := List.mem_filter.mp h
    refine .inr ⟨hrow, fun ⟨hrun, hkey⟩ => ?_⟩
    simp [Row.inSeries, hrun, hkey] at hother

theorem submission_ordered (h : c.submission = .ok x) : x.report.Ordered := by
  cases c with
  | node run name report collector clock =>
    obtain ⟨_, -, h⟩ := bind_eq_ok.mp h
    obtain ⟨_, -, hdone⟩ := bind_eq_ok.mp h
    cases hdone
    exact report.ordered
  | edge run name instanceId topology report collector clock =>
    simp only [Call.submission, bind_eq_ok] at h
    obtain ⟨_, hr, _, -, _, -, _, -, _, -, _, -, _, -, _, -, _, -, hdone⟩ := h
    cases hdone
    obtain ⟨rfl, -⟩ := (validate_eq_ok report.ordered).mp hr
    exact report.ordered

/-- What is written has the report itself, which was compared with the latest one. -/
theorem bodyOf_eq_some (hx : x.report.Ordered) (h : bodyOf s x e = .ok (some body)) :
    body.envelope.report = x.report ∧ body.workloadInstance.getD "" = x.instanceId ∧
      ∃ envelope, derive (baseline x (s.find x.run x.key)) x.report x.collector = .ok envelope := by
  obtain ⟨_, -, h⟩ := bind_eq_ok.mp h
  obtain ⟨_, hvalidated, h⟩ := bind_eq_ok.mp h
  obtain ⟨rfl, -⟩ := (validate_eq_ok hx).mp hvalidated
  obtain ⟨again, -, h⟩ := bind_eq_ok.mp h
  cases again with
  | true => cases h
  | false =>
    obtain ⟨envelope, hderive, h⟩ := bind_eq_ok.mp h
    obtain ⟨_, -, hdone⟩ := bind_eq_ok.mp h
    cases hdone
    have hreport : envelope.report = x.report :=
      ((validate_eq_ok hx).mp (derive_eq_ok hderive).1).1
    refine ⟨?_, ?_, envelope, hderive⟩
    · split <;> exact hreport
    · by_cases hempty : x.instanceId = "" <;> simp [hempty]

/-- The call throws. -/
def Rejected (s : Store) (c : Call) : Prop := ∃ message, (c.ingest s).1 = .error message

/-- The report is the latest one of its series and workload. -/
def Repeats (s : Store) (c : Call) : Prop :=
  ∃ x row, c.submission = .ok x ∧ s.find x.run x.key = some row ∧ row.instanceId = x.instanceId ∧
    row.report = x.report

/-- A report that is rejected and one that is repeated leave the tables alone. -/
theorem ingest_unchanged (h : Rejected s c ∨ Repeats s c) : (c.ingest s).2 = s := by
  rcases ingest_cases s c with ⟨-, hsame⟩ | ⟨x, body, hx, hbody, hingest⟩
  · exact hsame
  rcases h with ⟨message, h⟩ | ⟨x', row, hx', hrow, hinstance, hreport⟩
  · rw [hingest] at h
    cases h
  · cases hx.symm.trans hx'
    have hsame : baseline x (some row) = some row.body.envelope := by
      simp [baseline, replaced, hinstance]
    obtain ⟨_, -, h⟩ := bind_eq_ok.mp hbody
    obtain ⟨_, hvalidated, h⟩ := bind_eq_ok.mp h
    obtain ⟨rfl, -⟩ := (validate_eq_ok (submission_ordered hx)).mp hvalidated
    have hreport : row.body.envelope.report = x.report := hreport
    rw [hrow, hsame, repeated, hreport] at h
    simp only [and_self, if_true, ne_eq, not_true_eq_false, if_false, ok_bind] at h
    cases h

end Calls

/-! ## Runs that go forward -/

/-- What is known of the latest rows: each has an accepted report, the last one of its own. -/
structure Tracked (h : History) (row : Row) : Prop where
  valid : ∃ r : Report, r.Valid ∧ r.json = row.report
  last : ∀ e ∈ h.accepted, e.Alike ⟨row.run, row.key, row.instanceId, row.report⟩ →
    e.report = row.report ∨ e.parts.Precedes (Report.ofJson row.report)

section Runs

variable {h : History} {c : Call}

/-- What an accepted report is compared with is of its own or not. -/
theorem precedes_of_tracked {x : Submission} {body : Body} {e : Clock}
    (htracked : ∀ row ∈ h.store.latest, Tracked h row) (hx : x.report.Ordered)
    (hbody : bodyOf h.store x e = .ok (some body)) (hresumes : ¬Resumes h.store (entryOf (x, body))) :
    ∀ old ∈ h.accepted, old.Alike (entryOf (x, body)) →
      old.parts.Precedes (entryOf (x, body)).parts := by
  obtain ⟨hreport, -, envelope, hderive⟩ := bodyOf_eq_some hx hbody
  simp only [Resumes, not_forall, not_or, not_not] at hresumes
  obtain ⟨row, hrow, hinstance, hepoch⟩ := hresumes
  have hentry : (entryOf (x, body)).parts = Report.ofJson x.report :=
    congrArg Report.ofJson hreport
  obtain ⟨⟨p, hp, hpjson⟩, hlast⟩ := htracked row (List.mem_of_find?_eq_some hrow)
  obtain ⟨-, r, hr, hrjson⟩ := (validate_eq_ok hx).mp (derive_eq_ok hderive).1
  have hpparts : Report.ofJson row.report = p := by rw [← hpjson, Report.ofJson_json hp.toWellFormed]
  have hrparts : Report.ofJson x.report = r := by rw [← hrjson, Report.ofJson_json hr.toWellFormed]
  rw [hentry, hrparts, hpparts] at hepoch
  have hbase : baseline x (h.store.find x.run x.key) = some row.body.envelope := by
    rw [show h.store.find x.run x.key = some row from hrow]
    have : row.instanceId = x.instanceId := hinstance
    simp [baseline, replaced, this]
  rw [hbase, ← hrjson] at hderive
  have hfollows : p.Follows r := by
    rcases ((derive_isOk hp.toWellFormed hr.toWellFormed hpjson.symm _).mp ⟨_, hderive⟩).2 with hne | hf
    · exact absurd hepoch hne
    · exact hf
  intro old hold halike
  rw [hentry, hrparts]
  have halike' : old.Alike ⟨row.run, row.key, row.instanceId, row.report⟩ := by
    have hseries := List.find?_some hrow
    simp only [Row.inSeries, Bool.and_eq_true, beq_iff_eq] at hseries
    refine ⟨halike.run.trans hseries.1.symm, halike.key.trans hseries.2.symm,
      halike.instanceId.trans hinstance.symm, halike.epoch.trans ?_⟩
    change (entryOf (x, body)).parts.epoch = (Report.ofJson row.report).epoch
    rw [hentry, hrparts, hpparts, hepoch]
  rcases hlast old hold halike' with heq | hprecedes
  · have : old.parts = p := by rw [Entry.parts, heq, hpparts]
    rw [this]
    exact hfollows.precedes
  · rw [hpparts] at hprecedes
    exact hprecedes.follows hfollows

/-- A step accepts one report, or changes nothing. -/
theorem step_cases (h : History) (c : Call) :
    ((∀ y, (c.ingest h.store).1 ≠ .ok (some y)) ∧ h.step c = h) ∨
    ∃ x body, c.submission = .ok x ∧ bodyOf h.store x c.clock = .ok (some body) ∧
      (c.ingest h.store).1 = .ok (some (x, body)) ∧
      h.step c = ⟨(statements x body c.clock).foldl (fun s op => op s) h.store,
        entryOf (x, body) :: h.accepted⟩ := by
  rcases ingest_cases h.store c with ⟨hnone, hsame⟩ | ⟨x, body, hx, hbody, hingest⟩
  · refine .inl ⟨hnone, ?_⟩
    rcases hc : c.ingest h.store with ⟨_ | _ | y, s⟩
    · rw [hc] at hsame
      rw [History.step, hc]
      exact congrArg (fun s => { h with store := s }) hsame
    · rw [hc] at hsame
      rw [History.step, hc]
      exact congrArg (fun s => { h with store := s }) hsame
    · rw [hc] at hnone
      exact absurd rfl (hnone y)
  · refine .inr ⟨x, body, hx, hbody, by rw [hingest], ?_⟩
    rw [History.step, hingest]

/-- A call that meets the condition keeps the reports going forward. -/
theorem step_forward (htracked : ∀ row ∈ h.store.latest, Tracked h row)
    (hforward : Forward h.accepted) (hmeets : Meets h c) :
    (∀ row ∈ (h.step c).store.latest, Tracked (h.step c) row) ∧ Forward (h.step c).accepted := by
  rcases step_cases h c with ⟨-, hstep⟩ | ⟨x, body, hx, hbody, hingest, hstep⟩
  · rw [hstep]
    exact ⟨htracked, hforward⟩
  have hordered := submission_ordered hx
  obtain ⟨hreport, hinstance, _, hderive⟩ := bodyOf_eq_some hordered hbody
  have hnew : ∀ old ∈ h.accepted, old.Alike (entryOf (x, body)) →
      old.parts.Precedes (entryOf (x, body)).parts := by
    by_cases hresumes : Resumes h.store (entryOf (x, body))
    · exact hmeets _ hingest hresumes
    · exact precedes_of_tracked htracked hordered hbody hresumes
  rw [hstep]
  refine ⟨fun row hrow => ?_, List.pairwise_cons.mpr ⟨hnew, hforward⟩⟩
  rcases mem_latest hrow with ⟨hrun, hkey, rfl⟩ | ⟨hrow, hother⟩
  · -- the new row has the new report, which all others of its own precede
    have hentry : (⟨row.run, row.key, row.instanceId, row.report⟩ : Entry) =
        entryOf (x, row.body) := by
      rw [entryOf, hrun, hkey, Row.instanceId, hinstance]
      rfl
    refine ⟨?_, fun e he halike => ?_⟩
    · obtain ⟨-, r, hr, hrjson⟩ := (validate_eq_ok hordered).mp (derive_eq_ok hderive).1
      exact ⟨r, hr, hrjson.trans hreport.symm⟩
    · rw [hentry] at halike
      rcases List.mem_cons.mp he with rfl | he
      · exact .inl rfl
      · exact .inr (hnew e he halike)
  · obtain ⟨hvalid, hlast⟩ := htracked row hrow
    refine ⟨hvalid, fun e he halike => ?_⟩
    rcases List.mem_cons.mp he with rfl | he
    · exact absurd ⟨halike.run.symm, halike.key.symm⟩ hother
    · exact hlast e he halike

theorem forward_of_step (hforward : Forward (h.step c).accepted) :
    Forward h.accepted ∧ Meets h c := by
  rcases step_cases h c with ⟨hnone, hstep⟩ | ⟨x, body, -, -, hingest, hstep⟩
  · rw [hstep] at hforward
    exact ⟨hforward, fun y hy => absurd hy (hnone y)⟩
  · rw [hstep] at hforward
    obtain ⟨hnew, hold⟩ := List.pairwise_cons.mp hforward
    refine ⟨hold, fun y hy _ => ?_⟩
    rw [hingest] at hy
    cases hy
    exact hnew

theorem forward_of_after {calls : List Call} (hforward : Forward (h.after calls).accepted) :
    Forward h.accepted := by
  induction calls generalizing h with
  | nil => exact hforward
  | cons c calls ih => exact (forward_of_step (ih hforward)).1

theorem after_forward (htracked : ∀ row ∈ h.store.latest, Tracked h row)
    (hforward : Forward h.accepted) (calls : List Call) :
    Forward (h.after calls).accepted ↔ AllMeet h calls := by
  induction calls generalizing h with
  | nil => exact ⟨fun _ => trivial, fun _ => hforward⟩
  | cons c calls ih =>
    constructor
    · intro hafter
      have hmeets := (forward_of_step (forward_of_after hafter)).2
      obtain ⟨htracked', hforward'⟩ := step_forward htracked hforward hmeets
      exact ⟨hmeets, (ih htracked' hforward').mp hafter⟩
    · rintro ⟨hmeets, hrest⟩
      obtain ⟨htracked', hforward'⟩ := step_forward htracked hforward hmeets
      exact (ih htracked' hforward').mpr hrest

/-- **Reports of a series.**  After any calls, the accepted reports of every series, workload and
epoch go forward over the whole history if and only if each report that was compared with none of
its own did.  A report that is rejected, and the latest report once more, leave both tables as they
are. -/
theorem accepted_ordered (calls : List Call) :
    (Forward (History.after {} calls).accepted ↔ AllMeet {} calls) ∧
      ∀ s c, Rejected s c ∨ Repeats s c → (c.ingest s).2 = s := by
  have hforward : Forward (({} : History).accepted) := List.Pairwise.nil
  have htracked : ∀ row ∈ ({} : History).store.latest, Tracked {} row :=
    fun _ hrow => absurd hrow List.not_mem_nil
  exact ⟨after_forward htracked hforward calls, fun _ _ => ingest_unchanged⟩

end Runs

/-! ## A report that moves backward -/

/-- A report of a node without traffic. -/
def Sample.idle (epoch : String) (sequence : ℕ) : Report where
  stream := "udp-echo"
  epoch := epoch
  sequence := sequence
  elapsedNs := sequence * 1000
  counters
    | .reconnects | .backpressureNs => none
    | _ => some sequence

/-- The epochs of a workload and of the one that it is restarted as. -/
def Sample.epochs : String × String :=
  ("00000000000000000000000000000000", "11111111111111111111111111111111")

/-- A report after a restart, and one of before that comes late. -/
def Sample.calls : List Call :=
  [.node "run" "a" ⟨(Sample.idle Sample.epochs.1 5).json, by decide +kernel⟩ "collector" {},
    .node "run" "a" ⟨(Sample.idle Sample.epochs.2 1).json, by decide +kernel⟩ "collector" {},
    .node "run" "a" ⟨(Sample.idle Sample.epochs.1 3).json, by decide +kernel⟩ "collector" {}]

theorem epoch_moves_backward :
    ((History.after {} Sample.calls).accepted.map fun e => (e.parts.epoch, e.parts.sequence)) =
        [(Sample.epochs.1, 3), (Sample.epochs.2, 1), (Sample.epochs.1, 5)] ∧
      ¬Forward (History.after {} Sample.calls).accepted := by
  have haccepted : (History.after {} Sample.calls).accepted =
      [⟨"run", "a", "", (Sample.idle Sample.epochs.1 3).json⟩,
        ⟨"run", "a", "", (Sample.idle Sample.epochs.2 1).json⟩,
        ⟨"run", "a", "", (Sample.idle Sample.epochs.1 5).json⟩] := by
    decide +kernel
  rw [haccepted]
  refine ⟨by decide, fun hforward => ?_⟩
  have hlast := (List.pairwise_cons.mp hforward).1 _
    (List.mem_cons_of_mem _ (List.mem_singleton_self _))
  have hless := (hlast ⟨rfl, rfl, rfl, by decide⟩).sequence
  exact absurd hless (by decide)

/-! ## Tables of bounded size -/

theorem within_fit {κ : Type} [LinearOrder κ] (key : Row → κ) (m budget : ℕ) (rows : List Row) :
    Within m budget (fit budget (lastOn key m rows)) := by
  refine within_fitWithin ?_ le_rfl
  rw [lastOn, List.length_drop, (sortOn_perm _ _).length_eq]
  omega

/-- **The size of the tables.**  After any calls, accepted, refused or rolled back, both tables
are within their limits. -/
theorem tables_within (calls : List Call) :
    Within 1000 (4 * 1024 * 1024) (History.after {} calls).store.latest ∧
      Within 10000 (32 * 1024 * 1024) (History.after {} calls).store.history := by
  induction calls using List.reverseRecOn with
  | nil => exact ⟨⟨by decide, by decide⟩, by decide, by decide⟩
  | append_singleton calls c ih =>
    simp only [History.after, List.foldl_append, List.foldl_cons, List.foldl_nil] at ih ⊢
    rcases step_cases (calls.foldl History.step {}) c with ⟨-, hstep⟩ | ⟨_, _, -, -, -, hstep⟩
    · rwa [hstep]
    · -- whatever the tables were, the transaction ends with their limits
      simp only [hstep, statements, List.foldl_cons, List.foldl_nil, Store.fitHistory,
        Store.fitLatest, Store.pruneLatest, Store.pruneHistory, Store.pruneTime,
        Store.insertHistory, Store.replaceLatest]
      exact ⟨within_fit .., within_fit ..⟩

end Graphlab.Application
