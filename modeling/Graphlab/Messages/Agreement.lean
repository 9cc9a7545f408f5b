import Graphlab.Messages.Reporter

/-!
# The reporter and the collector agree

A workload observes messages and the collector polls its reports into one source, in any
order.  The ring of eight events loses what is not polled in time; the ledger counts exactly
those as missed, and stores the others once.

## Main definitions

* `World` — a reporter, a history, and what was observed and polled so far.

## Main results

* `reports_agree` — what is stored and what is missed, in every run.
-/

namespace Graphlab.Messages

open Lib

variable {codec : Codec}

/-- A reporter and the history that collects it. -/
structure World where
  reporter : Reporter
  history : History
  /-- The events of the messages that were observed. -/
  observed : List Json := []
  /-- For each poll the number of events before it, and the events that it saw. -/
  polls : List (ℕ × List Json) := []
  /-- For each poll what `ingest` returned or threw. -/
  outcomes : List (Except String Unit) := []

inductive Act
  | observe (wire : Bytes) (kind : Kind) (now : ℕ)
  | poll (now : ℕ) (observedAt : String)
  | prune (now rounds : ℕ)
  | restart (collector : String)

namespace World

/-- One act.  The collector names the source by `context`. -/
def step (codec : Codec) (context : Json) (w : World) : Act → World
  | .observe wire kind now =>
    { w with
      reporter := w.reporter.observe wire kind now
      observed := w.observed ++ ((Reporter.observation wire kind now).map
        (·.json (w.reporter.sequence + 1))).toList }
  | .poll now observedAt =>
    let result := w.history.ingest codec { context, input := w.reporter.report, now, observedAt }
    { w with
      history := result.2
      polls := w.polls ++ [(w.observed.length, w.reporter.events)]
      outcomes := w.outcomes ++ [result.1] }
  | .prune now rounds => { w with history := w.history.step codec (.prune now rounds) }
  | .restart collector => { w with history := w.history.step codec (.restart collector) }

def run (codec : Codec) (context : Json) (w : World) (acts : List Act) : World :=
  acts.foldl (step codec context) w

/-- The number of events before the last poll. -/
def counted (w : World) : ℕ := w.polls.getLast?.elim 0 Prod.fst

/-- The event was in the window at some poll. -/
def polled (w : World) (e : Json) : Bool := w.polls.any fun p => decide (e ∈ p.2)

end World

/-- The times at which messages are observed. -/
def times (acts : List Act) : List ℕ :=
  acts.filterMap fun
    | .observe _ _ now => some now
    | _ => none

/-! ## A report is accepted -/

variable {n : ℕ} {o : Observation}

/-- The loop over the events of a report throws nothing if the rows of the source that are there
are of numbers before those to insert, and have the events of the report. -/
theorem absorb_accepts {k : String} {high now : ℕ} {body : Json → Body} {es : List Json} {s : Store}
    (hes : Sequenced n es) (hstream : ∀ e ∈ es, ∃ t, value e "stream" = .ok t)
    (hrows : ∀ row ∈ s.events, row.k = k → row.seq < max (high + 1) n)
    (hsame : ∀ row ∈ s.events, row.k = k → row.seq ≤ high → ∀ e ∈ es,
      number e "sequence" = .ok row.seq → row.body.observation = e) :
    ∃ s', absorb k high now body s es = .ok s' := by
  induction es generalizing n s with
  | nil => exact ⟨s, rfl⟩
  | cons e es ih =>
    obtain ⟨hn, hes⟩ := hes
    have hstream' : ∀ e ∈ es, ∃ t, value e "stream" = .ok t := fun e he =>
      hstream e (List.mem_cons_of_mem _ he)
    rw [absorb, hn, ok_bind]
    by_cases hle : n ≤ high
    · rw [if_pos hle]
      have hrest : ∃ s', absorb k high now body s es = .ok s' := by
        refine ih hes hstream' (fun row hrow hk => ?_) (fun row hrow hk hle e he => ?_)
        · have hlt := hrows row hrow hk
          omega
        · exact hsame row hrow hk hle e (List.mem_cons_of_mem _ he)
      cases hfind : s.find? k n with
      | none => exact hrest
      | some row =>
        have hprop := List.find?_some hfind
        simp only [Bool.and_eq_true, beq_iff_eq] at hprop
        have hobs : row.body.observation = e :=
          hsame row (List.mem_of_find?_eq_some hfind) hprop.1 (by omega) e List.mem_cons_self
            (by rw [hprop.2]; exact hn)
        simp only [if_pos hobs]
        exact hrest
    · rw [if_neg hle]
      obtain ⟨_, ht⟩ := hstream e List.mem_cons_self
      have hfind : s.find? k n = none := by
        rw [Store.find?, List.find?_eq_none]
        intro row hrow hprop
        simp only [Bool.and_eq_true, beq_iff_eq] at hprop
        have hlt := hrows row hrow hprop.1
        omega
      rw [ht, ok_bind, Store.insert, hfind, ok_bind]
      refine ih hes hstream' (fun row hrow hk => ?_) (fun row hrow hk hle' e he hseq => ?_)
      · rcases List.mem_append.mp hrow with hold | hnew
        · have hlt := hrows row hold hk
          omega
        · rw [List.mem_singleton.mp hnew]
          show n < max (high + 1) (n + 1)
          omega
      · rcases List.mem_append.mp hrow with hold | hnew
        · exact hsame row hold hk hle' e (List.mem_cons_of_mem _ he) hseq
        · rw [List.mem_singleton.mp hnew] at hle'
          exact absurd hle' hle

/-! ## Events by their number -/

theorem number_json (hn : n < 10 ^ 18) :
    number (o.json n) "sequence" = .ok n := number_toString rfl hn

theorem sequenced_enumerate {os : List Observation} (h : n + os.length ≤ 10 ^ 18) :
    Sequenced n (enumerate n os) := by
  induction os generalizing n with
  | nil => trivial
  | cons o os ih =>
    rw [List.length_cons] at h
    exact ⟨number_json (by omega), ih (by omega)⟩

theorem getElem?_enumerate (n i : ℕ) (os : List Observation) :
    (enumerate n os)[i]? = os[i]?.map (·.json (n + i)) := by
  induction os generalizing n i with
  | nil => rfl
  | cons o os ih =>
    cases i with
    | zero => rfl
    | succ =>
      rw [enumerate, List.getElem?_cons_succ, List.getElem?_cons_succ, ih, Nat.add_assoc,
        Nat.add_comm 1]

theorem mem_enumerate {os : List Observation} {e : Json} (h : e ∈ enumerate n os) :
    ∃ i, ∃ o : Observation, os[i]? = some o ∧ e = o.json (n + i) := by
  obtain ⟨i, hi⟩ := List.mem_iff_getElem?.mp h
  rw [getElem?_enumerate] at hi
  obtain ⟨o, ho, rfl⟩ := Option.map_eq_some_iff.mp hi
  exact ⟨i, o, ho, rfl⟩

theorem json_number_inj {o' : Observation} {m : ℕ} (h : o.json m = o'.json n) : m = n := by
  have hsequence := congrArg (Json.find? · "sequence") h
  exact toString_inj (Json.string.inj (Option.some.inj hsequence))

/-- An event is in a part of the events that are numbered from one exactly if its number is. -/
theorem json_mem_window {os : List Observation} {i a b : ℕ} (h : os[i]? = some o) :
    o.json (i + 1) ∈ enumerate (a + 1) ((os.take b).drop a) ↔ a ≤ i ∧ i < b := by
  constructor
  · intro hmem
    obtain ⟨_, _, hj, heq⟩ := mem_enumerate hmem
    have hnumber := json_number_inj heq
    rw [List.getElem?_drop, List.getElem?_take] at hj
    split at hj
    · omega
    · cases hj
  · rintro ⟨ha, hb⟩
    refine List.mem_iff_getElem?.mpr ⟨i - a, ?_⟩
    rw [getElem?_enumerate, List.getElem?_drop, show a + (i - a) = i by omega,
      List.getElem?_take_of_lt hb, h, Option.map_some, show a + 1 + (i - a) = i + 1 by omega]

/-! ## Windows -/

theorem range'_split {c t : ℕ} (h : c ≤ t) :
    List.range' 1 t = List.range' 1 c ++ List.range' (1 + c) (t - c) := by
  rw [List.range'_append_1]
  congr 1
  omega

/-- The numbers that are polled up to `t`, when those up to `c` were polled before. -/
theorem filter_range'_window {c t : ℕ} {seen : ℕ → Bool} (hct : c ≤ t)
    (hearlier : ∀ n, 1 ≤ n → n ≤ c → t - 8 < n → seen n = true)
    (hseen : ∀ n, seen n = true → n ≤ c) :
    (List.range' 1 t).filter (fun n => seen n || (decide (t - 8 < n) && decide (n ≤ t))) =
      (List.range' 1 c).filter seen ++ List.range' (max (t - 8) c + 1) (t - max (t - 8) c) := by
  set m := max (t - 8) c with hm
  have hsplit : List.range' 1 t =
      List.range' 1 c ++ (List.range' (c + 1) (m - c) ++ List.range' (m + 1) (t - m)) := by
    rw [show m + 1 = c + 1 + (m - c) by omega, List.range'_append_1, Nat.add_comm c 1,
      range'_split hct]
    congr 2
    omega
  have hlow : (List.range' 1 c).filter
      (fun n => seen n || (decide (t - 8 < n) && decide (n ≤ t))) =
      (List.range' 1 c).filter seen := by
    refine List.filter_congr fun n hn => ?_
    have hrange := List.mem_range'_1.mp hn
    by_cases hwindow : t - 8 < n
    · rw [hearlier n hrange.1 (by omega) hwindow, Bool.true_or]
    · simp [hwindow]
  have hgap : (List.range' (c + 1) (m - c)).filter
      (fun n => seen n || (decide (t - 8 < n) && decide (n ≤ t))) = [] := by
    refine List.filter_eq_nil_iff.mpr fun n hn hprop => ?_
    have hrange := List.mem_range'_1.mp hn
    have hunseen : seen n = false := by
      by_contra hne
      have hle := hseen n (by simpa using hne)
      omega
    simp only [hunseen, Bool.false_or, Bool.and_eq_true, decide_eq_true_eq] at hprop
    omega
  have hhigh : (List.range' (m + 1) (t - m)).filter
      (fun n => seen n || (decide (t - 8 < n) && decide (n ≤ t))) = List.range' (m + 1) (t - m) := by
    refine List.filter_eq_self.mpr fun n hn => ?_
    have hrange := List.mem_range'_1.mp hn
    simp only [Bool.or_eq_true, Bool.and_eq_true, decide_eq_true_eq]
    omega
  rw [hsplit, List.filter_append, List.filter_append, hlow, hgap, hhigh, List.nil_append]

theorem valid_of_observation {wire : Bytes} {kind : Kind} {now : ℕ}
    (h : Reporter.observation wire kind now = some o) (hnow : now < 10 ^ 18) :
    o.Valid ∧ o.time = now := by
  obtain ⟨_, hid, rfl⟩ := Option.map_eq_some_iff.mp h
  unfold identifier at hid
  split at hid
  · cases hid
  rename_i hlength
  simp only [Bool.or_eq_true, bne_iff_ne, ne_eq, not_or, not_not] at hlength
  split at hid
  · cases hid
  dsimp only at hid
  split at hid
  · rename_i hhex
    cases hid
    refine ⟨⟨?_, hhex, rfl, hlength.1, hnow⟩, rfl⟩
    simp only [List.length_take, List.length_drop, hlength.1]
    rfl
  · cases hid

/-! ## The invariant -/

namespace World

/-- The number was in the window at some poll. -/
def seen (w : World) (n : ℕ) : Bool :=
  w.polls.any fun p => decide (p.1 - 8 < n) && decide (n ≤ p.1)

/-- The reporter and the history after the observations `os`, which were made at some of the
times `ts`; the source has the key `k`. -/
structure Agrees (k : String) (w : World) (os : List Observation) (ts : List ℕ) : Prop where
  observed : w.observed = enumerate 1 os
  epoch : hexText 32 w.reporter.epoch = true
  sequence : w.reporter.sequence = os.length
  events : w.reporter.events = enumerate (os.length - 8 + 1) (os.drop (os.length - 8))
  valid : ∀ o ∈ os, o.Valid
  times : (os.map Observation.time).Sublist ts
  windows : ∀ p ∈ w.polls, p.1 ≤ w.counted ∧
    p.2 = enumerate (p.1 - 8 + 1) ((os.take p.1).drop (p.1 - 8))
  last : w.counted ≤ os.length ∧ (0 < w.counted → ∃ p ∈ w.polls, p.1 = w.counted)
  high : w.history.db.high k = w.counted
  store : w.history.db.Inv
  sources : (w.history.db.sources[k]?).isSome ∨ w.history.db.sources.size = 0
  rows : ∀ row ∈ w.history.db.inserted, row.k = k ∧
    ∃ o : Observation, os[row.seq - 1]? = some o ∧ row.body.observation = o.json row.seq
  inserted : w.history.db.insertedOf k = (List.range' 1 w.counted).filter w.seen
  outcomes : ∀ o ∈ w.outcomes, o = .ok ()

variable {context : Json} {workloadInstance : String}

namespace Agrees

variable {k : String} {w : World} {os : List Observation} {ts : List ℕ}

theorem window (h : w.Agrees k os ts) (hts : ts.Pairwise (· ≤ ·)) (hbound : os.length < 10 ^ 18) :
    w.reporter.Window (os.length - 8) (os.drop (os.length - 8)) where
  epoch := h.epoch
  events := h.events
  sequence := by
    rw [h.sequence, List.length_drop]
    omega
  length := by
    rw [List.length_drop]
    omega
  valid o ho := h.valid o (List.mem_of_mem_drop ho)
  clock := by
    have hpairwise := hts.sublist h.times
    rw [List.map_drop]
    exact (hpairwise.sublist (List.drop_sublist _ _)).isChain
  bound := by rw [h.sequence]; exact hbound

/-- The events that are stored are of numbers up to the mark. -/
theorem seq_le (h : w.Agrees k os ts) {row : Row} (hrow : row ∈ w.history.db.inserted) :
    1 ≤ row.seq ∧ row.seq ≤ w.counted := by
  rw [← h.high]
  apply h.store.range k
  exact List.mem_map_of_mem (List.mem_filter.mpr ⟨hrow, by simp [(h.rows row hrow).1]⟩)

/-- A message is observed. -/
theorem observe (h : w.Agrees k os ts) (wire : Bytes) (kind : Kind) (now : ℕ)
    (hnow : now < 10 ^ 18) :
    ∃ os', (w.step codec context (.observe wire kind now)).Agrees k os' (ts ++ [now]) := by
  have hts : ts.Sublist (ts ++ [now]) := List.sublist_append_left ts [now]
  cases hobservation : Reporter.observation wire kind now with
  | none =>
    refine ⟨os, ?_⟩
    have hstep : w.step codec context (.observe wire kind now) = w := by
      simp [step, Reporter.observe, hobservation]
    rw [hstep]
    exact { h with times := h.times.trans hts }
  | some o =>
    obtain ⟨hvalid, htime⟩ := valid_of_observation hobservation hnow
    have hearlier : ∀ t, t ≤ os.length → (os ++ [o]).take t = os.take t := fun t ht =>
      List.take_append_of_le_length ht
    refine ⟨os ++ [o], ?_⟩
    have hevents : (w.reporter.observe wire kind now).events =
        enumerate ((os ++ [o]).length - 8 + 1) ((os ++ [o]).drop ((os ++ [o]).length - 8)) := by
      have hall : w.reporter.events ++ [o.json (w.reporter.sequence + 1)] =
          enumerate (os.length - 8 + 1) ((os ++ [o]).drop (os.length - 8)) := by
        rw [h.events, h.sequence, List.drop_append_of_le_length (by omega), enumerate_append,
          List.length_drop]
        congr 3
        omega
      simp only [Reporter.observe, hobservation, hall, length_enumerate, List.length_drop,
        List.length_append, List.length_singleton]
      by_cases hfull : 8 < os.length + 1 - (os.length - 8)
      · rw [if_pos hfull, enumerate_drop, List.drop_drop]
        congr 2 <;> omega
      · rw [if_neg hfull]
        congr 2 <;> omega
    exact
      { h with
        observed := by
          simp only [step, hobservation, Option.map_some, Option.toList_some, h.observed,
            h.sequence, enumerate_append]
          rw [Nat.add_comm 1 os.length]
          rfl
        epoch := by simpa only [step, Reporter.observe, hobservation] using h.epoch
        sequence := by simp [step, Reporter.observe, hobservation, h.sequence]
        events := hevents
        valid := by
          intro o' ho'
          rcases List.mem_append.mp ho' with hold | hnew
          · exact h.valid o' hold
          · rw [List.mem_singleton.mp hnew]
            exact hvalid
        times := by
          rw [List.map_append, List.map_singleton, htime]
          exact h.times.append (List.Sublist.refl [now])
        windows := by
          intro p hp
          obtain ⟨hle, hwindow⟩ := h.windows p hp
          refine ⟨hle, ?_⟩
          rw [hearlier p.1 (hle.trans h.last.1)]
          exact hwindow
        last := by
          refine ⟨h.last.1.trans ?_, h.last.2⟩
          simp
        rows := by
          intro row hrow
          obtain ⟨hk, o', ho', hbody⟩ := h.rows row hrow
          refine ⟨hk, o', ?_, hbody⟩
          rw [List.getElem?_append_left (List.getElem?_eq_some_iff.mp ho').1]
          exact ho' }

/-- A poll is accepted: the report agrees with what is stored. -/
theorem accepted (h : w.Agrees k os ts) (hts : ts.Pairwise (· ≤ ·)) (hbound : os.length < 10 ^ 18)
    {run node : String} (hrun : str context "runId" = .ok run)
    (hnode : str context "node" = .ok node)
    (hinstance : str context "instance" = .ok workloadInstance)
    (hk : k = codec.digest [run, node, workloadInstance, w.reporter.epoch]) (now : ℕ)
    (observedAt : String) :
    ∃ db rows, w.history.ingested codec { context, input := w.reporter.report, now, observedAt } =
        .ok db ∧
      w.history.db.Ingested db k os.length (os.length - 8) rows ∧
      ∀ row ∈ rows, ∃ o : Observation, os[row.seq - 1]? = some o ∧
        row.body.observation = o.json row.seq := by
  have hwindow := h.window hts hbound
  have hevents : Messages.events w.reporter.report =
      enumerate (os.length - 8 + 1) (os.drop (os.length - 8)) := h.events
  have hlength : (os.drop (os.length - 8)).length = os.length - (os.length - 8) := List.length_drop
  have htotal : number w.reporter.report "total" = .ok os.length := by
    rw [hwindow.total, h.sequence]
  have hsequenced : Sequenced (os.length - 8 + 1) (Messages.events w.reporter.report) := by
    rw [hevents]
    exact sequenced_enumerate (by omega)
  -- An event of the report is the observation with its number.
  have hnumbered : ∀ e ∈ Messages.events w.reporter.report, ∀ n, number e "sequence" = .ok n →
      ∃ o : Observation, os[n - 1]? = some o ∧ e = o.json n := by
    intro e he n hn
    rw [hevents] at he
    obtain ⟨i, o, ho, rfl⟩ := mem_enumerate he
    have hlt := (List.getElem?_eq_some_iff.mp ho).1
    rw [number_json (by omega)] at hn
    rw [List.getElem?_drop] at ho
    rw [← Except.ok.inj hn]
    exact ⟨o, by rw [show os.length - 8 + 1 + i - 1 = os.length - 8 + i by omega, ho], rfl⟩
  have hsources : (w.history.db.sources[k]?).elim 0 Source.high = w.counted := h.high
  obtain ⟨s, hs⟩ : ∃ s, absorb k w.counted now (fun e =>
      { runId := run, node, workloadInstance, reporterEpoch := w.reporter.epoch,
        clock := .string "reporter-monotonic-ns", observation := e, observedAt,
        collectorEpoch := w.history.collector }) w.history.db
      (Messages.events w.reporter.report) = .ok s := by
    refine absorb_accepts hsequenced ?_ ?_ ?_
    · intro e he
      rw [hevents] at he
      obtain ⟨_, o, -, rfl⟩ := mem_enumerate he
      exact ⟨o.identifier.stream.text, rfl⟩
    · intro row hrow _
      have hle := h.seq_le (h.store.events.subset hrow)
      omega
    · intro row hrow _ _ e he hseq
      obtain ⟨_, ho, rfl⟩ := hnumbered e he row.seq hseq
      obtain ⟨-, _, ho', hbody⟩ := h.rows row (h.store.events.subset hrow)
      rw [hbody, Option.some.inj (ho'.symm.trans ho)]
  have hcapacity : ((w.history.db.sources[k]?).isSome ||
      decide (w.history.db.sources.size < 256)) = true := by
    rcases h.sources with hsome | hzero
    · rw [hsome, Bool.true_or]
    · simp [hzero]
  obtain ⟨db, hdb⟩ : ∃ db, transaction codec w.history run node workloadInstance w.reporter.epoch
      w.reporter.report now observedAt = .ok db := by
    have hclock : at' w.reporter.report "clock" = .ok (.string "reporter-monotonic-ns") := rfl
    rw [transaction]
    simp only [htotal, hwindow.evicted_eq, ok_bind, ← hk, hsources]
    rw [check_bind (by simpa using h.last.1), check_bind hcapacity, hclock, ok_bind, hs, ok_bind]
    exact ⟨_, rfl⟩
  obtain ⟨rows, hingested, hreported⟩ := transaction_ok htotal hwindow.evicted_eq
    (by rw [hevents, length_enumerate]; omega) hsequenced hdb
  refine ⟨db, rows, ?_, hk ▸ hingested, fun row hrow => ?_⟩
  · rw [History.ingested]
    simp only [hrun, hnode, hinstance, hwindow.validate_report, hwindow.epoch_eq.1, ok_bind, hdb]
  · obtain ⟨hmem, hseq⟩ := hreported row hrow
    exact hnumbered _ hmem _ hseq

/-- The collector polls. -/
theorem poll (h : w.Agrees k os ts) (hts : ts.Pairwise (· ≤ ·)) (hbound : os.length < 10 ^ 18)
    {run node : String} (hrun : str context "runId" = .ok run)
    (hnode : str context "node" = .ok node)
    (hinstance : str context "instance" = .ok workloadInstance)
    (hk : k = codec.digest [run, node, workloadInstance, w.reporter.epoch]) (now : ℕ)
    (observedAt : String) : (w.step codec context (.poll now observedAt)).Agrees k os ts := by
  obtain ⟨db, rows, hok, hingested, hrows⟩ :=
    h.accepted hts hbound hrun hnode hinstance hk now observedAt
  have hobserved : w.observed.length = os.length := by rw [h.observed, length_enumerate]
  have hstep : w.step codec context (.poll now observedAt) =
      { w with
        history := { w.history with db }
        polls := w.polls ++ [(os.length, w.reporter.events)]
        outcomes := w.outcomes ++ [.ok ()] } := by
    simp only [step, History.ingest, hok, hobserved]
  have hcounted : (w.step codec context (.poll now observedAt)).counted = os.length := by
    simp [hstep, counted]
  have hseen : (w.step codec context (.poll now observedAt)).seen =
      fun n => w.seen n || (decide (os.length - 8 < n) && decide (n ≤ os.length)) := by
    funext n
    simp [hstep, seen]
  have hlast := h.last
  refine
    { observed := by rw [hstep]; exact h.observed
      epoch := by rw [hstep]; exact h.epoch
      sequence := by rw [hstep]; exact h.sequence
      events := by rw [hstep]; exact h.events
      valid := h.valid
      times := h.times
      windows := ?_
      last := ?_
      high := ?_
      store := ?_
      sources := ?_
      rows := ?_
      inserted := ?_
      outcomes := ?_ }
  · intro p hp
    rw [hstep] at hp
    rw [hcounted]
    rcases List.mem_append.mp hp with hold | hnew
    · obtain ⟨hle, hwindow⟩ := h.windows p hold
      exact ⟨hle.trans hlast.1, hwindow⟩
    · rw [List.mem_singleton.mp hnew]
      refine ⟨le_rfl, ?_⟩
      rw [List.take_length]
      exact h.events
  · rw [hcounted, hstep]
    exact ⟨le_rfl, fun _ => ⟨_, List.mem_append_right _ (List.mem_singleton_self _), rfl⟩⟩
  · rw [hcounted, hstep]
    exact hingested.sources_self.1
  · rw [hstep]
    exact hingested.inv h.store
  · rw [hstep]
    obtain ⟨_, hsources, -⟩ := hingested.source
    exact .inl (by simp [hsources])
  · rw [hstep]
    intro row hrow
    rw [hingested.inserted] at hrow
    rcases List.mem_append.mp hrow with hold | hnew
    · exact h.rows row hold
    · exact ⟨hingested.key row hnew, hrows row hnew⟩
  · have hinserted := hingested.insertedOf_self
    rw [h.high, h.inserted] at hinserted
    rw [hcounted, hseen, filter_range'_window hlast.1, ← hinserted, hstep]
    · intro n hpos hle hwindow
      -- The last poll saw what is still in the window.
      obtain ⟨p, hp, _⟩ := hlast.2 (by omega)
      exact List.any_eq_true.mpr ⟨p, hp, by simp only [Bool.and_eq_true, decide_eq_true_eq]; omega⟩
    · intro n hn
      obtain ⟨p, hp, hprop⟩ := List.any_eq_true.mp hn
      simp only [Bool.and_eq_true, decide_eq_true_eq] at hprop
      exact hprop.2.trans (h.windows p hp).1
  · rw [hstep]
    intro o ho
    rcases List.mem_append.mp ho with hold | hnew
    · exact h.outcomes o hold
    · exact List.mem_singleton.mp hnew

/-- Steps of the history that insert nothing. -/
theorem upkeep (h : w.Agrees k os ts) {x : Step} (hx : (w.history.step codec x).db.inserted =
      w.history.db.inserted ∧ (w.history.step codec x).db.sources = w.history.db.sources) :
    Agrees k { w with history := w.history.step codec x } os ts :=
  { h with
    high := by
      simp only [Store.high, hx.2]
      exact h.high
    store := (w.history.step_inv h.store x).1
    sources := by
      simp only [hx.2]
      exact h.sources
    rows := by
      simp only [hx.1]
      exact h.rows
    inserted := by
      simp only [Store.insertedOf, hx.1]
      exact h.inserted }

/-! ## What is stored -/

/-- The event with the number `n`. -/
def event (w : World) (n : ℕ) : Json := (w.observed[n - 1]?).getD .null

theorem observed_eq_map (h : w.Agrees k os ts) :
    w.observed = (List.range' 1 os.length).map (event w) := by
  have hlength : w.observed.length = os.length := by rw [h.observed, length_enumerate]
  apply List.ext_getElem (by simp [hlength])
  intro i hi _
  simp only [List.getElem_map, List.getElem_range', event]
  rw [show 1 + 1 * i - 1 = i by omega, List.getElem?_eq_getElem hi, Option.getD_some]

/-- An event was polled exactly if its number was. -/
theorem polled_event (h : w.Agrees k os ts) (hpos : 1 ≤ n) (hle : n ≤ os.length) :
    w.polled (event w n) = w.seen n := by
  have hlt : n - 1 < os.length := by omega
  have hsome : os[n - 1]? = some os[n - 1] := List.getElem?_eq_getElem hlt
  have hevent : event w n = (os[n - 1]).json (n - 1 + 1) := by
    rw [event, h.observed, getElem?_enumerate, hsome, Option.map_some, Option.getD_some,
      Nat.add_comm 1]
  rw [hevent, polled, seen, List.any_eq, List.any_eq, decide_eq_decide]
  refine exists_congr fun p => and_congr_right fun hp => ?_
  rw [decide_eq_true_eq, (h.windows p hp).2, json_mem_window hsome, Bool.and_eq_true,
    decide_eq_true_eq, decide_eq_true_eq]
  omega

theorem filter_seen (h : w.Agrees k os ts) :
    (List.range' 1 os.length).filter w.seen = (List.range' 1 w.counted).filter w.seen := by
  have hle := h.last.1
  have hnone : (List.range' (1 + w.counted) (os.length - w.counted)).filter w.seen = [] := by
    refine List.filter_eq_nil_iff.mpr fun n hn hseen => ?_
    have hge := (List.mem_range'_1.mp hn).1
    obtain ⟨p, hp, hprop⟩ := List.any_eq_true.mp hseen
    simp only [Bool.and_eq_true, decide_eq_true_eq] at hprop
    have hcounted := (h.windows p hp).1
    omega
  rw [range'_split hle, List.filter_append, hnone, List.append_nil]

/-- The events that were ever stored are those that some poll saw. -/
theorem stored (h : w.Agrees k os ts) :
    w.history.db.inserted.map (·.body.observation) = w.observed.filter w.polled := by
  have hseq : w.history.db.inserted.map Row.seq = (List.range' 1 w.counted).filter w.seen := by
    rw [← h.inserted, Store.insertedOf, List.filter_eq_self.mpr]
    exact fun row hrow => by simp [(h.rows row hrow).1]
  have hbody : w.history.db.inserted.map (·.body.observation) =
      (w.history.db.inserted.map Row.seq).map (event w) := by
    rw [List.map_map]
    refine List.map_congr_left fun row hrow => ?_
    obtain ⟨-, _, ho, hobservation⟩ := h.rows row hrow
    have hpos := (h.seq_le hrow).1
    rw [Function.comp_apply, event, h.observed, getElem?_enumerate, ho, Option.map_some,
      Option.getD_some, show 1 + (row.seq - 1) = row.seq by omega, hobservation]
  have hfilter : (List.range' 1 os.length).filter (w.polled ∘ event w) =
      (List.range' 1 os.length).filter w.seen := by
    refine List.filter_congr fun n hn => ?_
    have hrange := List.mem_range'_1.mp hn
    exact h.polled_event hrange.1 (by omega)
  rw [hbody, hseq, ← h.filter_seen, ← hfilter, ← List.filter_map, ← h.observed_eq_map]

/-- The missed events are those that no poll saw, up to the last poll. -/
theorem missed (h : w.Agrees k os ts) : w.history.db.missed k =
    (w.observed.take w.counted).countP fun e => !w.polled e := by
  have hle := h.last.1
  have htake : w.observed.take w.counted = (List.range' 1 w.counted).map (event w) := by
    rw [h.observed_eq_map, ← List.map_take, range'_split hle, List.take_left' (by simp)]
  have hcount : (List.range' 1 w.counted).countP (fun n => !w.polled (event w n)) =
      (List.range' 1 w.counted).countP fun n => !w.seen n := by
    refine List.countP_congr fun n hn => ?_
    have hrange := List.mem_range'_1.mp hn
    rw [h.polled_event hrange.1 (by omega)]
  have hsplit := List.length_eq_countP_add_countP (l := List.range' 1 w.counted) w.seen
  have htotal := h.store.total k
  rw [h.high, h.inserted, ← List.countP_eq_length_filter] at htotal
  rw [List.length_range'] at hsplit
  have hnot : (fun n => decide ¬w.seen n = true) = fun n => !w.seen n := by
    funext n
    cases w.seen n <;> rfl
  rw [hnot] at hsplit
  rw [htake, List.countP_map]
  show _ = (List.range' 1 w.counted).countP fun n => !w.polled (event w n)
  rw [hcount]
  omega

end Agrees

/-! ## Runs -/

/-- A reporter that has observed nothing, and an empty history. -/
def start (epoch collector : String) : World where
  reporter := { epoch }
  history := { collector }

theorem agrees_start {epoch : String} (hepoch : hexText 32 epoch = true) (collector k : String) :
    (start epoch collector).Agrees k [] [] where
  observed := rfl
  epoch := hepoch
  sequence := rfl
  events := rfl
  valid := by simp
  times := List.Sublist.refl _
  windows := by simp [start]
  last := ⟨Nat.le_refl 0, fun h => absurd h (Nat.lt_irrefl 0)⟩
  high := by simp [start, Store.high, counted]
  store := Store.inv_empty
  sources := .inr rfl
  rows := by simp [start]
  inserted := rfl
  outcomes := by simp [start]

theorem epoch_step (w : World) (a : Act) :
    (w.step codec context a).reporter.epoch = w.reporter.epoch := by
  cases a with
  | observe =>
    simp only [step, Reporter.observe]
    split <;> rfl
  | poll => rfl
  | prune => rfl
  | restart => rfl

theorem observed_step (w : World) (a : Act) :
    w.observed.length ≤ (w.step codec context a).observed.length := by
  cases a with
  | observe => simp [step]
  | poll => exact le_rfl
  | prune => exact le_rfl
  | restart => exact le_rfl

theorem agrees_run {run node epoch : String} (hrun : str context "runId" = .ok run)
    (hnode : str context "node" = .ok node)
    (hinstance : str context "instance" = .ok workloadInstance) (hepoch : hexText 32 epoch = true)
    (collector : String) (acts : List Act) (hclock : (times acts).Pairwise (· ≤ ·))
    (htimes : ∀ t ∈ times acts, t < 10 ^ 18)
    (hbound : ((start epoch collector).run codec context acts).observed.length < 10 ^ 18) :
    ((start epoch collector).run codec context acts).reporter.epoch = epoch ∧
    ∃ os, ((start epoch collector).run codec context acts).Agrees
      (codec.digest [run, node, workloadInstance, epoch]) os (times acts) := by
  induction acts using List.reverseRecOn with
  | nil => exact ⟨rfl, [], agrees_start hepoch collector _⟩
  | append_singleton acts a ih =>
    have hstep : (start epoch collector).run codec context (acts ++ [a]) =
        ((start epoch collector).run codec context acts).step codec context a := by
      simp [World.run]
    have hts : times (acts ++ [a]) = times acts ++ times [a] := List.filterMap_append
    rw [hts] at hclock htimes ⊢
    rw [hstep] at hbound ⊢
    have hbefore := lt_of_le_of_lt (observed_step _ a) hbound
    obtain ⟨hsame, os, hagrees⟩ := ih (List.pairwise_append.mp hclock).1
      (fun t ht => htimes t (List.mem_append_left _ ht)) hbefore
    set w := (start epoch collector).run codec context acts
    refine ⟨(w.epoch_step a).trans hsame, ?_⟩
    rw [hagrees.observed, length_enumerate] at hbefore
    cases a with
    | observe wire kind now =>
      exact hagrees.observe wire kind now
        (htimes now (List.mem_append_right _ (by simp [times])))
    | poll now observedAt =>
      rw [show times [.poll now observedAt] = [] from rfl, List.append_nil]
      exact ⟨os, hagrees.poll (List.pairwise_append.mp hclock).1 hbefore hrun hnode hinstance
        (by rw [hsame]) now observedAt⟩
    | prune now rounds =>
      rw [show times [.prune now rounds] = [] from rfl, List.append_nil]
      exact ⟨os, hagrees.upkeep ⟨rfl, rfl⟩⟩
    | restart collector =>
      rw [show times [.restart collector] = [] from rfl, List.append_nil]
      exact ⟨os, hagrees.upkeep ⟨rfl, rfl⟩⟩

end World

/-- **The reporter and the collector agree.**  For an epoch of 32 digits, a clock that does not go
back, and fewer than `10 ^ 18` events and nanoseconds: the report passes the validation and every
poll was accepted, the events ever stored are, once each and in order, the observed events that
some poll saw, and the missed count of the source is the number of those before the last poll
that no poll saw. -/
theorem reports_agree {context : Json} {run node workloadInstance epoch : String}
    (hrun : str context "runId" = .ok run) (hnode : str context "node" = .ok node)
    (hinstance : str context "instance" = .ok workloadInstance)
    (hepoch : hexText 32 epoch = true) (collector : String) (acts : List Act)
    (hclock : (times acts).Pairwise (· ≤ ·)) (htimes : ∀ t ∈ times acts, t < 10 ^ 18)
    (hbound : ((World.start epoch collector).run codec context acts).observed.length < 10 ^ 18) :
    let w := (World.start epoch collector).run codec context acts
    let k := codec.digest [run, node, workloadInstance, epoch]
    validate w.reporter.report = .ok w.reporter.report ∧
    (∀ o ∈ w.outcomes, o = .ok ()) ∧
    (∀ row ∈ w.history.db.inserted, row.k = k) ∧
    w.history.db.inserted.map (·.body.observation) = w.observed.filter w.polled ∧
    w.history.db.missed k = (w.observed.take w.counted).countP fun e => !w.polled e := by
  intro w k
  obtain ⟨-, os, hagrees⟩ :=
    World.agrees_run hrun hnode hinstance hepoch collector acts hclock htimes hbound
  have hlength : os.length < 10 ^ 18 := by
    rwa [hagrees.observed, length_enumerate] at hbound
  exact ⟨(hagrees.window hclock hlength).validate_report, hagrees.outcomes,
    fun row hrow => (hagrees.rows row hrow).1, hagrees.stored, hagrees.missed⟩

namespace Sample

def plain : Codec where
  digest texts := String.join texts
  length _ := 500

def context : Json :=
  .object [("instance", .string "i"), ("node", .string "n"), ("runId", .string "r")]

def epoch : String := "0123456789abcdef0123456789abcdef"

/-- A request of the stream alpha. -/
def wire : Bytes := magic ++ List.replicate 48 97 ++ [65]

/-- Nine messages are observed between two polls. -/
def acts : List Act :=
  .observe wire .send 1 :: .poll 10 "" :: (List.range' 2 9).map (.observe wire .receive ·) ++
    [.poll 20 "", .prune 90000 5, .poll 90001 ""]

end Sample

theorem reports_agree_sample :
    let w := (World.start Sample.epoch "c").run Sample.plain Sample.context Sample.acts
    w.observed.length = 10 ∧
    w.history.db.inserted.map (·.body.observation) = w.observed.filter w.polled ∧
    w.history.db.missed (Sample.plain.digest ["r", "n", "i", Sample.epoch]) =
      (w.observed.take w.counted).countP fun e => !w.polled e := by
  have hlength : ((World.start Sample.epoch "c").run Sample.plain Sample.context
      Sample.acts).observed.length = 10 := by decide
  have hepoch : hexText 32 Sample.epoch = true := by decide
  have hagree := @reports_agree Sample.plain Sample.context "r" "n" "i" Sample.epoch rfl rfl rfl
    hepoch "c" Sample.acts (by decide) (by decide) (by rw [hlength]; decide)
  exact ⟨hlength, hagree.2.2.2.1, hagree.2.2.2.2⟩

end Graphlab.Messages
