import Graphlab.Messages.History
import Mathlib.Data.Finset.Card
import Mathlib.Order.Interval.Finset.Nat

/-!
# The ledger of a message source

A source has a high-water mark and a count of the sequence numbers that it missed.  An ingest
that commits inserts the numbers of its report above the mark and counts the numbers between
the mark and the report as missed (`Ingested`), so that the numbers up to the mark are those
that were inserted and those that were missed, whatever is pruned.

## Main results

* `message_ledger` — the accounts of every source in every run.
-/

namespace Graphlab.Messages

open Lib
open Std (TreeMap)

variable {codec : Codec}

/-! ## Reports -/

/-- Events with the sequence numbers from `n` on. -/
def Sequenced : ℕ → List Json → Prop
  | _, [] => True
  | n, e :: es => number e "sequence" = .ok n ∧ Sequenced (n + 1) es

theorem sequence_of_validateEvent {expected previous time : ℕ} {e : Json}
    (h : validateEvent expected previous e = .ok time) : number e "sequence" = .ok expected := by
  simp only [validateEvent, bind_eq_ok] at h
  obtain ⟨_, -, _, hn, _, hcheck, -⟩ := h
  rw [check_eq_ok, beq_iff_eq] at hcheck
  rw [hn, hcheck]

theorem sequenced_of_validateEvents {es : List Json} {expected previous : ℕ}
    (h : validateEvents expected previous es = .ok ()) : Sequenced expected es := by
  induction es generalizing expected previous with
  | nil => trivial
  | cons e es ih =>
    rw [validateEvents, bind_eq_ok] at h
    obtain ⟨_, htime, hrest⟩ := h
    exact ⟨sequence_of_validateEvent htime, ih hrest⟩

/-- The window of a report that is well formed. -/
theorem window_of_validate {r r' : Json} (h : validate r = .ok r') :
    r' = r ∧ ∃ total evicted, number r "total" = .ok total ∧ number r "evicted" = .ok evicted ∧
      total = evicted + (events r).length ∧ Sequenced (evicted + 1) (events r) := by
  simp only [validate, bind_eq_ok] at h
  obtain ⟨_, -, _, -, _, -, _, -, _, -, _, -, _, -, _, -, _, -, _, -, _, -, h⟩ := h
  obtain ⟨total, htotal, evicted, hevicted, _, hwindow, _, hevents, hr⟩ := h
  rw [check_eq_ok, Bool.and_eq_true, decide_eq_true_eq, beq_iff_eq] at hwindow
  refine ⟨(Except.ok.inj hr).symm, total, evicted, htotal, hevicted, by omega, ?_⟩
  exact sequenced_of_validateEvents hevents

/-! ## Prune -/

theorem pruneRows_sublist (rounds : ℕ) (events : List Row) (now : ℕ) :
    (Store.pruneRows codec rounds events now).Sublist events := by
  induction rounds generalizing events with
  | zero => exact List.Sublist.refl _
  | succ rounds ih =>
    rw [Store.pruneRows]
    split
    · exact List.Sublist.refl _
    · exact (ih _).trans List.filter_sublist

/-! ## Ingest -/

theorem insert_ok {s s' : Store} {k stream : String} {seq created : ℕ} {body : Body}
    (h : s.insert k seq stream created body = .ok s') :
    ∃ row : Row, row.k = k ∧ row.seq = seq ∧ row.body = body ∧ s'.sources = s.sources ∧
      s'.events = s.events ++ [row] ∧ s'.inserted = s.inserted ++ [row] := by
  unfold Store.insert at h
  split at h
  · cases h
  · cases h
    exact ⟨_, rfl, rfl, rfl, rfl, rfl, rfl⟩

/-- The loop over the events of a report inserts the numbers above the high-water mark. -/
theorem absorb_ok {k : String} {high now : ℕ} {body : Json → Body} {es : List Json} {n : ℕ}
    {s s' : Store} (hbody : ∀ e, (body e).observation = e) (hes : Sequenced n es)
    (h : absorb k high now body s es = .ok s') :
    ∃ rows : List Row, s'.sources = s.sources ∧ s'.events = s.events ++ rows ∧
      s'.inserted = s.inserted ++ rows ∧ (∀ row ∈ rows, row.k = k) ∧
      (∀ row ∈ rows, row.body.observation ∈ es ∧
        number row.body.observation "sequence" = .ok row.seq) ∧
      rows.map Row.seq = List.range' (max n (high + 1)) (n + es.length - max n (high + 1)) := by
  induction es generalizing n s with
  | nil =>
    cases h
    exact ⟨[], rfl, by simp, by simp, by simp, by simp, by simp⟩
  | cons e es ih =>
    obtain ⟨hn, hes⟩ := hes
    rw [absorb, hn, ok_bind] at h
    by_cases hle : n ≤ high
    · rw [if_pos hle] at h
      have hrest : absorb k high now body s es = .ok s' := by
        split at h
        · split at h
          · exact h
          · cases h
        · exact h
      obtain ⟨rows, hsources, hevents, hinserted, hk, hreported, hseq⟩ := ih hes hrest
      refine ⟨rows, hsources, hevents, hinserted, hk, fun row hrow => ?_, ?_⟩
      · exact ⟨List.mem_cons_of_mem e (hreported row hrow).1, (hreported row hrow).2⟩
      rw [hseq, List.length_cons, show max (n + 1) (high + 1) = max n (high + 1) by omega]
      congr 1
      omega
    · rw [if_neg hle, bind_eq_ok] at h
      obtain ⟨_, -, h⟩ := h
      rw [bind_eq_ok] at h
      obtain ⟨_, hinsert, h⟩ := h
      obtain ⟨row, hrow, hat, hrowBody, hsources', hevents', hinserted'⟩ := insert_ok hinsert
      obtain ⟨rows, hsources, hevents, hinserted, hk, hreported, hseq⟩ := ih hes h
      refine ⟨row :: rows, hsources.trans hsources', ?_, ?_, ?_, ?_, ?_⟩
      · rw [hevents, hevents', List.append_assoc, List.singleton_append]
      · rw [hinserted, hinserted', List.append_assoc, List.singleton_append]
      · exact List.forall_mem_cons.mpr ⟨hrow, hk⟩
      · refine List.forall_mem_cons.mpr ⟨?_, fun row hrow => ?_⟩
        · rw [hrowBody, hbody, hat]
          exact ⟨List.mem_cons_self, hn⟩
        · exact ⟨List.mem_cons_of_mem e (hreported row hrow).1, (hreported row hrow).2⟩
      · rw [List.map_cons, hat, hseq, List.length_cons,
          show max n (high + 1) = n by omega, show max (n + 1) (high + 1) = n + 1 by omega,
          show n + (es.length + 1) - n = es.length + 1 by omega,
          show n + 1 + es.length - (n + 1) = es.length by omega, List.range'_succ]

namespace Store

/-- The high-water mark of a source; zero before its first report. -/
def high (s : Store) (k : String) : ℕ := (s.sources[k]?).elim 0 Source.high

/-- The numbers that a source missed. -/
def missed (s : Store) (k : String) : ℕ := (s.sources[k]?).elim 0 Source.missed

/-- The numbers that were ever inserted for a source. -/
def insertedOf (s : Store) (k : String) : List ℕ :=
  (s.inserted.filter (·.k == k)).map Row.seq

/-- What an ingest that commits does to the database: the report of the source `k` has the
numbers from `evicted + 1` to `total`. -/
structure Ingested (s s' : Store) (k : String) (total evicted : ℕ) (rows : List Row) : Prop where
  window : evicted ≤ total
  advances : s.high k ≤ total
  source : ∃ src, s'.sources = s.sources.insert k src ∧ src.high = total ∧
    src.missed = s.missed k + (evicted - s.high k)
  events : s'.events.Sublist (s.events ++ rows)
  inserted : s'.inserted = s.inserted ++ rows
  key : ∀ row ∈ rows, row.k = k
  seq : rows.map Row.seq =
    List.range' (max evicted (s.high k) + 1) (total - max evicted (s.high k))

end Store

variable {h : History}

/-- The transaction of a report with the numbers from `evicted + 1` to `total`. -/
theorem transaction_ok {run node workloadInstance epoch : String} {r : Json} {now : ℕ}
    {observedAt : String} {s' : Store} {total evicted : ℕ} (htotal : number r "total" = .ok total)
    (hevicted : number r "evicted" = .ok evicted) (hlength : total = evicted + (events r).length)
    (hes : Sequenced (evicted + 1) (events r))
    (hok : transaction codec h run node workloadInstance epoch r now observedAt = .ok s') :
    ∃ rows, h.db.Ingested s' (codec.digest [run, node, workloadInstance, epoch]) total evicted rows ∧
      ∀ row ∈ rows, row.body.observation ∈ events r ∧
        number row.body.observation "sequence" = .ok row.seq := by
  set k := codec.digest [run, node, workloadInstance, epoch] with hk
  simp only [transaction, htotal, hevicted, ok_bind, bind_eq_ok, ← hk] at hok
  obtain ⟨_, hadvance, _, -, _, -, _, hs, hok⟩ := hok
  rw [check_eq_ok, decide_eq_true_eq] at hadvance
  obtain ⟨rows, hsources, hevents, hinserted, hkeys, hreported, hseq⟩ :=
    absorb_ok (fun e => rfl) hes hs
  cases hok
  refine ⟨rows, ⟨by omega, hadvance, ?_, ?_, hinserted, hkeys, ?_⟩, hreported⟩
  · refine ⟨Source.after h.db.sources[k]? run node workloadInstance epoch total evicted now
      h.collector, ?_, rfl, rfl⟩
    rw [← hsources]
    rfl
  · rw [← hevents]
    exact pruneRows_sublist _ _ _
  · rw [hseq]
    show _ = List.range' (max evicted ((h.db.sources[k]?).elim 0 Source.high) + 1)
      (total - max evicted ((h.db.sources[k]?).elim 0 Source.high))
    congr 1 <;> omega

theorem ingested_ok {a : Ingest} {s' : Store} (hok : h.ingested codec a = .ok s') :
    ∃ k total evicted rows, h.db.Ingested s' k total evicted rows := by
  simp only [History.ingested, bind_eq_ok] at hok
  obtain ⟨_, -, _, -, _, -, _, hr, _, -, hok⟩ := hok
  obtain ⟨rfl, total, evicted, htotal, hevicted, hlength, hes⟩ := window_of_validate hr
  cases hfailure : a.failure with
  | some =>
    rw [hfailure] at hok
    cases hok
  | none =>
    rw [hfailure] at hok
    obtain ⟨rows, hingested, -⟩ := transaction_ok htotal hevicted hlength hes hok
    exact ⟨_, total, evicted, rows, hingested⟩

/-! ## Accounts -/

namespace Store

/-- The accounts are right: of each source the numbers that were inserted are increasing, up to
the high-water mark, and with the missed ones they make it up; the events are among the rows
that were inserted. -/
structure Inv (s : Store) : Prop where
  increasing (k : String) : (s.insertedOf k).Pairwise (· < ·)
  range (k : String) : ∀ n ∈ s.insertedOf k, 1 ≤ n ∧ n ≤ s.high k
  total (k : String) : s.missed k + (s.insertedOf k).length = s.high k
  events : s.events.Sublist s.inserted

theorem inv_empty : Inv {} where
  increasing k := List.Pairwise.nil
  range k n hn := absurd hn List.not_mem_nil
  total k := by simp [missed, high, insertedOf]
  events := List.Sublist.refl _

/-- What was inserted later, and that no mark went back. -/
structure Later (s s' : Store) : Prop where
  inserted : ∃ rows, s'.inserted = s.inserted ++ rows ∧ ∀ row ∈ rows, s.high row.k < row.seq
  high (k : String) : s.high k ≤ s'.high k
  missed (k : String) : s.missed k ≤ s'.missed k
  source (k : String) : (s.sources[k]?).isSome → (s'.sources[k]?).isSome

theorem Later.refl (s : Store) : Later s s where
  inserted := ⟨[], by simp, by simp⟩
  high k := le_rfl
  missed k := le_rfl
  source k hk := hk

theorem Later.trans {s s' s'' : Store} (h : Later s s') (h' : Later s' s'') : Later s s'' where
  inserted := by
    obtain ⟨rows, hrows, hseq⟩ := h.inserted
    obtain ⟨rows', hrows', hseq'⟩ := h'.inserted
    refine ⟨rows ++ rows', by rw [hrows', hrows, List.append_assoc], ?_⟩
    intro row hrow
    rcases List.mem_append.mp hrow with hmem | hmem
    · exact hseq row hmem
    · exact (h.high row.k).trans_lt (hseq' row hmem)
  high k := (h.high k).trans (h'.high k)
  missed k := (h.missed k).trans (h'.missed k)
  source k hk := h'.source k (h.source k hk)

namespace Ingested

variable {s s' : Store} {k : String} {total evicted : ℕ} {rows : List Row}

theorem sources_self (h : s.Ingested s' k total evicted rows) :
    s'.high k = total ∧ s'.missed k = s.missed k + (evicted - s.high k) := by
  obtain ⟨_, hsources, hhigh, hmissed⟩ := h.source
  simp [Store.high, Store.missed, hsources, hhigh, hmissed]

theorem sources_other (h : s.Ingested s' k total evicted rows) {l : String} (hl : l ≠ k) :
    s'.sources[l]? = s.sources[l]? := by
  obtain ⟨_, hsources, -⟩ := h.source
  rw [hsources, TreeMap.getElem?_insert]
  simp [Ne.symm hl]

theorem insertedOf_self (h : s.Ingested s' k total evicted rows) :
    s'.insertedOf k = s.insertedOf k ++
      List.range' (max evicted (s.high k) + 1) (total - max evicted (s.high k)) := by
  have hall : rows.filter (·.k == k) = rows :=
    List.filter_eq_self.mpr fun row hrow => by simp [h.key row hrow]
  rw [Store.insertedOf, h.inserted, List.filter_append, List.map_append, hall, h.seq]
  rfl

theorem insertedOf_other (h : s.Ingested s' k total evicted rows) {l : String} (hl : l ≠ k) :
    s'.insertedOf l = s.insertedOf l := by
  have hnone : rows.filter (·.k == l) = [] :=
    List.filter_eq_nil_iff.mpr fun row hrow => by simp [h.key row hrow, Ne.symm hl]
  rw [Store.insertedOf, h.inserted, List.filter_append, hnone, List.append_nil]
  rfl

/-- An ingest keeps the accounts right. -/
theorem inv (h : s.Ingested s' k total evicted rows) (hs : s.Inv) : s'.Inv where
  increasing l := by
    by_cases hl : l = k
    · subst hl
      rw [h.insertedOf_self]
      refine List.pairwise_append.mpr ⟨hs.increasing l, List.pairwise_lt_range' .., ?_⟩
      intro m hm n hn
      have hm' := (hs.range l m hm).2
      have hn' := (List.mem_range'_1.mp hn).1
      omega
    · rw [h.insertedOf_other hl]
      exact hs.increasing l
  range l := by
    by_cases hl : l = k
    · subst hl
      rw [h.insertedOf_self, h.sources_self.1]
      intro n hn
      have hadvances := h.advances
      have hwindow := h.window
      rcases List.mem_append.mp hn with hold | hnew
      · have hold' := hs.range l n hold
        omega
      · have hnew' := List.mem_range'_1.mp hnew
        omega
    · rw [h.insertedOf_other hl, Store.high, h.sources_other hl]
      exact hs.range l
  total l := by
    by_cases hl : l = k
    · subst hl
      have hsum := hs.total l
      have hadvances := h.advances
      have hwindow := h.window
      rw [h.insertedOf_self, h.sources_self.1, h.sources_self.2, List.length_append,
        List.length_range']
      omega
    · rw [h.insertedOf_other hl, Store.high, Store.missed, h.sources_other hl]
      exact hs.total l
  events := by
    rw [h.inserted]
    exact h.events.trans (List.Sublist.append hs.events (List.Sublist.refl rows))

theorem later (h : s.Ingested s' k total evicted rows) : Later s s' where
  inserted := by
    refine ⟨rows, h.inserted, fun row hrow => ?_⟩
    have hmem : row.seq ∈ rows.map Row.seq := List.mem_map_of_mem hrow
    rw [h.seq] at hmem
    have hge := (List.mem_range'_1.mp hmem).1
    rw [h.key row hrow]
    omega
  high l := by
    by_cases hl : l = k
    · subst hl
      rw [h.sources_self.1]
      exact h.advances
    · rw [Store.high, Store.high, h.sources_other hl]
  missed l := by
    by_cases hl : l = k
    · subst hl
      rw [h.sources_self.2]
      exact Nat.le_add_right ..
    · rw [Store.missed, Store.missed, h.sources_other hl]
  source l hl := by
    obtain ⟨_, hsources, -⟩ := h.source
    rw [hsources, TreeMap.getElem?_insert]
    split
    · rfl
    · exact hl

end Ingested

end Store

/-! ## Runs -/

namespace History

theorem ingest_error {a : Ingest} {e : String}
    (he : (h.ingest codec a).1 = .error e) : (h.ingest codec a).2 = h := by
  unfold ingest at he ⊢
  split at he
  · cases he
  · rfl

/-- One step keeps the accounts right, and moves no mark back. -/
theorem step_inv (h : History) (hs : h.db.Inv) (x : Step) :
    (h.step codec x).db.Inv ∧ h.db.Later (h.step codec x).db := by
  cases x with
  | ingest =>
    rw [step, ingest]
    split
    · rename_i db hdb
      obtain ⟨k, total, _, _, hingested⟩ := ingested_ok hdb
      exact ⟨hingested.inv hs, hingested.later⟩
    · exact ⟨hs, Store.Later.refl _⟩
  | prune now rounds =>
    refine ⟨⟨hs.increasing, hs.range, hs.total, ?_⟩, ⟨[], by simp [step], by simp⟩, ?_, ?_, ?_⟩
    · exact (pruneRows_sublist rounds h.db.events now).trans hs.events
    · exact fun k => le_rfl
    · exact fun k => le_rfl
    · exact fun k hk => hk
  | restart => exact ⟨hs, Store.Later.refl _⟩

theorem run_inv (h : History) (hs : h.db.Inv) (steps : List Step) :
    (h.run codec steps).db.Inv ∧ h.db.Later (h.run codec steps).db := by
  induction steps generalizing h with
  | nil => exact ⟨hs, Store.Later.refl _⟩
  | cons x steps ih =>
    obtain ⟨hinv, hlater⟩ := @step_inv codec h hs x
    obtain ⟨hinv', hlater'⟩ := ih (h.step codec x) hinv
    exact ⟨hinv', hlater.trans hlater'⟩

end History

namespace Store

variable {s : Store} (hs : s.Inv)
include hs

theorem Inv.nodup (k : String) : (s.insertedOf k).Nodup := (hs.increasing k).imp fun h => h.ne

/-- The numbers up to the mark that were never inserted are as many as were missed. -/
theorem Inv.card_missed (k : String) :
    ((Finset.Icc 1 (s.high k)).filter (· ∉ s.insertedOf k)).card = s.missed k := by
  have hsubset : (s.insertedOf k).toFinset ⊆ Finset.Icc 1 (s.high k) := by
    intro n hn
    exact Finset.mem_Icc.mpr (hs.range k n (List.mem_toFinset.mp hn))
  have hfilter : (Finset.Icc 1 (s.high k)).filter (· ∉ s.insertedOf k) =
      Finset.Icc 1 (s.high k) \ (s.insertedOf k).toFinset := by
    ext n
    simp
  have htotal := hs.total k
  rw [hfilter, Finset.card_sdiff_of_subset hsubset, Nat.card_Icc,
    List.toFinset_card_of_nodup (hs.nodup k)]
  omega

/-- The events of a source that satisfy a condition are at most those that were inserted. -/
theorem Inv.countP_le (k : String) (p : Row → Bool) :
    s.events.countP (fun e => e.k == k && p e) ≤ (s.insertedOf k).length := by
  calc s.events.countP (fun e => e.k == k && p e)
      ≤ s.inserted.countP (fun e => e.k == k && p e) := hs.events.countP_le
    _ ≤ s.inserted.countP (·.k == k) :=
        List.countP_mono_left fun e _ he => (Bool.and_eq_true .. ▸ he).1
    _ = (s.insertedOf k).length := by
        rw [List.countP_eq_length_filter, insertedOf, List.length_map]

end Store

/-- The account of a source never shows a negative number of events. -/
theorem History.account_nonneg (hs : h.db.Inv) {k : String} {src : Source}
    (hk : h.db.sources[k]? = some src) (now : ℕ) : 0 ≤ (h.account now k src).expiredOrPruned := by
  have hcount := hs.countP_le k fun e => decide (now ≤ e.created + 86400)
  have htotal := hs.total k
  simp only [Store.high, Store.missed, hk, Option.elim_some] at htotal
  simp only [History.account]
  omega

/-- **The ledger of message sources.**  After any steps: of each source the numbers up to its
high-water mark are those that were inserted, each once, and those counted as missed; no account
of a query is negative.  Whatever happens later, no mark goes back and no number up to the mark
is inserted again.  An ingest that throws leaves the history as it was. -/
theorem message_ledger (codec : Codec) (collector : String) (steps : List Step) :
    let h := History.run codec { collector } steps
    (∀ k, (h.db.insertedOf k).Nodup ∧ (∀ n ∈ h.db.insertedOf k, 1 ≤ n ∧ n ≤ h.db.high k) ∧
      ((Finset.Icc 1 (h.db.high k)).filter (· ∉ h.db.insertedOf k)).card = h.db.missed k ∧
      h.db.missed k + (h.db.insertedOf k).length = h.db.high k) ∧
    (∀ p now answer, h.query codec p now = .ok answer → ∀ a ∈ answer.sources,
      a.expiredOrPruned = a.total - a.missedBeforeIngestion - a.retained ∧
      0 ≤ a.expiredOrPruned) ∧
    (∀ later, h.db.Later (h.run codec later).db) ∧
    (∀ a e, (h.ingest codec a).1 = .error e → (h.ingest codec a).2 = h) := by
  intro h
  have hs : h.db.Inv := (History.run_inv _ Store.inv_empty steps).1
  refine ⟨fun k => ⟨hs.nodup k, hs.range k, hs.card_missed k, hs.total k⟩, ?_, ?_, ?_⟩
  · intro p now answer hanswer a ha
    simp only [History.query, bind_eq_ok] at hanswer
    obtain ⟨_, -, _, -, _, -, _, -, _, -, _, -, hanswer⟩ := hanswer
    cases hanswer
    obtain ⟨_, hx, rfl⟩ := List.mem_map.mp ha
    have hmem := TreeMap.mem_toList_iff_getElem?_eq_some.mp (List.mem_filter.mp hx).1
    exact ⟨rfl, History.account_nonneg hs hmem now⟩
  · exact fun later => (h.run_inv hs later).2
  · exact fun a e he => History.ingest_error he

end Graphlab.Messages
