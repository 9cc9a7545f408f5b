import Graphlab.Application.Accepted
import Mathlib.Algebra.Order.Floor.Div
import Mathlib.GroupTheory.GroupAction.Ring

/-!
# Latencies of reports

A report has its service times by their buckets alone.  What `validate` asks of the buckets is
what latencies with these buckets and this sum need to exist, and what `derive` says of the 95th
percentile is true of all such latencies.

## Main results

* `latency_exact` — the check of the latencies is exact.
* `latency_percentile` — the bucket of the 95th percentile.
-/

namespace Graphlab.Application

open Lib

/-- The latencies that a histogram is of. -/
structure Histogram.Realises (h : Histogram) (xs : List ℕ) : Prop where
  count : xs.length = h.count
  buckets : tally bounds xs = h.buckets
  sum : xs.sum = h.sum

/-! ## The check -/

variable {h : Histogram}

section Check

/-- The sum of the buckets stays a word, whatever they are. -/
theorem addBuckets_total {lo : ℕ} {bs : List ℕ} {t t' : Totals} {vs : List Json}
    (h : addBuckets lo bs t vs = .ok t') (ht : t.total < 2 ^ 64) : t'.total < 2 ^ 64 := by
  induction vs generalizing lo bs t with
  | nil =>
    rw [addBuckets] at h
    cases h
    exact ht
  | cons v vs ih =>
    rw [addBuckets] at h
    obtain ⟨n, -, h⟩ := bind_eq_ok.mp h
    obtain ⟨_, hle, h⟩ := bind_eq_ok.mp h
    have hle := decide_eq_true_eq.mp (require_eq_ok.mp hle)
    cases bs with
    | nil => exact ih h (show t.total + n < 2 ^ 64 by omega)
    | cons => exact ih h (show t.total + n < 2 ^ 64 by omega)

theorem consistent_iff (hw : h.Words) (messages : ℕ) :
    h.Consistent messages ↔ h.count ≤ messages ∧ ∃ xs, h.Realises xs := by
  have hsums := exists_samples_iff (s := h.sum) (fun b _ => Nat.zero_le b)
    (by decide : bounds.Pairwise (· < ·)) (hw.length : h.buckets.length = bounds.length + 1)
  constructor
  · intro hc
    obtain ⟨xs, -, htally, hsum⟩ := hsums.mpr ⟨hc.minimum, hc.maximum⟩
    refine ⟨hc.count, xs, ?_, htally, hsum⟩
    rw [← hc.total, ← htally, sum_tally]
  · rintro ⟨hcount, xs, hxs⟩
    obtain ⟨hmin, hmax⟩ := hsums.mp ⟨xs, fun _ _ => Nat.zero_le _, hxs.buckets, hxs.sum⟩
    refine ⟨?_, hcount, hmin, hmax⟩
    rw [← hxs.buckets, sum_tally, hxs.count]

/-- **The check of latencies is exact.**  A report whose other parts are well formed is accepted
if and only if it has no more latencies than messages and there are latencies with its count,
its buckets and its sum.  The sum over the buckets never leaves the words. -/
theorem latency_exact (r : Report) (h : Histogram) (hr : r.WellFormed) (hl : r.latency = some h) :
    (validate r.json = .ok r.json ↔ h.count ≤ r.messages ∧ ∃ xs, h.Realises xs) ∧
      ∀ vs t, addBuckets 0 bounds {} vs = .ok t → t.total < 2 ^ 64 := by
  constructor
  · rw [validate_json hr, ← consistent_iff (hr.latency h hl) r.messages]
    constructor
    · intro hc
      exact hc.2 h hl
    · intro hc
      refine ⟨rfl, fun h' hl' => ?_⟩
      cases (Option.mem_def.mp hl').symm.trans hl
      exact hc
  · intro vs t ht
    exact addBuckets_total ht (by decide)

/-- A source of an edge that has sent two messages. -/
def Sample.report : Report where
  edge := some ("link", .source)
  stream := "edge"
  epoch := "0123456789abcdef0123456789abcdef"
  sequence := 3
  elapsedNs := 7000
  counters
    | .receivedMessages | .receivedPayloadBytes | .backpressureEvents => none
    | .sentMessages => some 2
    | _ => some 0
  latency := some ⟨2, 10060000, [1, 0, 0, 0, 0, 0, 0, 1]⟩

theorem Sample.wellFormed : Sample.report.WellFormed where
  edge := by decide
  stream := by decide
  epoch := by decide
  sequence := by decide
  elapsedNs := by decide
  words := by
    intro k n hk
    cases k <;> cases hk <;> decide
  present := by
    intro k hk hnone
    cases k <;> first | exact ⟨.source, rfl, by decide⟩ | cases hnone
  foreign := by
    rintro e he k hk
    cases Option.mem_def.mp he
    cases k <;> first | rfl | exact absurd hk (by decide)
  node := by
    intro h
    cases h
  latency := by
    intro h hh
    cases Option.mem_def.mp hh
    exact ⟨by decide, by decide, rfl, by decide⟩

theorem latency_exact_sample :
    (validate Sample.report.json).isOk = true ∧
      ∃ xs, (⟨2, 10060000, [1, 0, 0, 0, 0, 0, 0, 1]⟩ : Histogram).Realises xs := by
  have hr := Sample.wellFormed
  have hxs : (⟨2, 10060000, [1, 0, 0, 0, 0, 0, 0, 1]⟩ : Histogram).Realises [4000, 10056000] :=
    ⟨rfl, by decide, rfl⟩
  have hok := (latency_exact Sample.report _ hr rfl).1.mpr ⟨by decide, _, hxs⟩
  rw [hok]
  exact ⟨rfl, _, hxs⟩

end Check

/-! ## The 95th percentile -/

section Percentile

theorem scanBuckets_words {rank cumulative : ℕ} {bs ns : List ℕ}
    (hlength : ns.length = bs.length + 1) (hwords : ∀ n ∈ ns, n < 2 ^ 64) :
    scanBuckets rank cumulative bs (ns.map word) = quantile rank cumulative bs ns := by
  induction bs generalizing ns cumulative with
  | nil =>
    obtain ⟨n, rfl⟩ := List.length_eq_one_iff.mp hlength
    have hn := valueOf_word (hwords n (List.mem_singleton_self n))
    simp only [List.map_cons, List.map_nil, scanBuckets, quantile, hn]
  | cons b bs ih =>
    cases ns with
    | nil => simp at hlength
    | cons =>
      obtain ⟨hn, hns⟩ := List.forall_mem_cons.mp hwords
      rw [List.map_cons, scanBuckets, quantile, valueOf_word hn, ih (by simpa using hlength) hns]

theorem bounds_eq : bounds = boundsUs.map (· * 1000) := by decide

theorem rankOf_eq (count : ℕ) : rankOf count = (19 * count) ⌈/⌉ 20 := by
  rw [rankOf, Nat.ceilDiv_eq_add_pred_div]
  omega

theorem Histogram.json_injective : Function.Injective Histogram.json := by
  intro h h' heq
  simp only [Histogram.json, Json.object.injEq, List.cons.injEq, Prod.mk.injEq, Json.array.injEq,
    true_and, and_true] at heq
  obtain ⟨hbuckets, _, _⟩ := heq
  have hbuckets := List.map_injective_iff.mpr word_injective hbuckets
  cases h
  cases h'
  simp_all [word_injective.eq_iff]

theorem deriveLatency_json (hw : h.Words) (hcount : 0 < h.count) :
    deriveLatency h.json =
      { count := h.count
        meanUs := some ((h.sum : ℚ) / h.count / 1000)
        p95UpperBoundUs := (quantile (rankOf h.count) 0 boundsUs h.buckets).join
        p95Overflow := quantile (rankOf h.count) 0 boundsUs h.buckets == some none } := by
  have hc : valueOf (member h.json "count") = h.count := valueOf_word hw.count
  have hs : valueOf (member h.json "sumNs") = h.sum := valueOf_word hw.sum
  have hb : (member h.json "buckets").elements = h.buckets.map word := rfl
  rw [deriveLatency, hc, hs, hb, scanBuckets_words hw.length hw.buckets]
  exact if_neg (Nat.pos_iff_ne_zero.mp hcount)

/-- What is said of a latency by its bucket. -/
structure Latency.Bounds (l : Latency) (v : ℕ) : Prop where
  /-- The latency is in the bucket with the upper bound. -/
  bound : ∀ b ∈ l.p95UpperBoundUs, v ≤ b * 1000 ∧ ∀ lower ∈ boundsUs, lower < b → lower * 1000 < v
  overflow : l.p95Overflow = true ↔ 10000000 < v
  null : l.p95Overflow = true ↔ l.p95UpperBoundUs = none

theorem bounds_of_realises (hw : h.Words) (hcount : 0 < h.count) {xs : List ℕ}
    (hxs : h.Realises xs) :
    ∃ v, smallest (rankOf h.count) xs = some v ∧ (deriveLatency h.json).Bounds v := by
  have hperm := List.perm_insertionSort (· ≤ ·) xs
  have hrank : 0 < rankOf h.count ∧ rankOf h.count ≤ h.count := by
    rw [rankOf]
    omega
  have hk : rankOf h.count - 1 < (xs.insertionSort (· ≤ ·)).length := by
    rw [hperm.length_eq, hxs.count]
    omega
  have hspec := quantile_spec (List.pairwise_insertionSort (· ≤ ·) xs)
    (by decide : bounds.Pairwise (· < ·)) hk
    (by omega : rankOf h.count = 0 + (rankOf h.count - 1) + 1)
  have htally : tally bounds (xs.insertionSort (· ≤ ·)) = h.buckets := by
    rw [← hxs.buckets]
    exact tally_perm hperm
  rw [htally, bounds_eq, quantile_map] at hspec
  refine ⟨_, List.getElem?_eq_getElem hk, ?_⟩
  rw [deriveLatency_json hw hcount]
  -- the bounds in nanoseconds are those of the scan, a thousand times
  rcases hspec with ⟨u, hu, hfound, hle, hbelow⟩ | ⟨hfound, hbelow⟩
  · obtain ⟨_, hq, hsome⟩ := Option.map_eq_some_iff.mp hfound
    obtain ⟨b, rfl, rfl⟩ := Option.map_eq_some_iff.mp hsome
    have hmax : b * 1000 ≤ 10000000 := (by decide : ∀ c ∈ boundsUs.map (· * 1000), c ≤ 10000000) _ hu
    rw [hq]
    refine ⟨fun b' hb' => ?_, ⟨fun h => absurd h (by simp), fun h => ?_⟩, by simp⟩
    · cases Option.mem_def.mp hb'
      refine ⟨hle, fun lower hlower hlt => ?_⟩
      exact hbelow _ (List.mem_map_of_mem hlower) (by omega)
    · omega
  · obtain ⟨_, hq, hnone⟩ := Option.map_eq_some_iff.mp hfound
    cases Option.map_eq_none_iff.mp hnone
    rw [hq]
    exact ⟨by simp, ⟨fun _ => hbelow _ (by decide), fun _ => rfl⟩, by simp⟩

/-- **The 95th percentile.**  Of all latencies that the histogram of an accepted report can be
of, the one with rank `⌈19 * count / 20⌉` is in the bucket that `derive` names.  No sum of the scan
leaves the words. -/
theorem latency_percentile {old : Option Envelope} {j : Json} {collector : String} {e : Envelope}
    (hj : j.Ordered) (he : derive old j collector = .ok e) {h : Histogram}
    (hl : j.find? "latency" = some h.json) (hcount : 0 < h.count) :
    ∃ l, e.latency = some l ∧ l.count = h.count ∧
      rankOf h.count = (19 * h.count) ⌈/⌉ 20 ∧ (∀ i, (h.buckets.take i).sum < 2 ^ 64) ∧
      ∀ xs, h.Realises xs → ∃ v, smallest ((19 * h.count) ⌈/⌉ 20) xs = some v ∧ l.Bounds v := by
  obtain ⟨hvalid, -, hlatency⟩ := derive_eq_ok he
  obtain ⟨hreport, r, hr, rfl⟩ := (validate_eq_ok hj).mp hvalid
  obtain ⟨-, -, -, -, -, -, hfind, -⟩ := find_json r
  obtain ⟨_, hl', hjson⟩ := Option.map_eq_some_iff.mp (hfind.symm.trans hl)
  cases Histogram.json_injective hjson
  have hw := hr.latency h hl'
  rw [hreport, hl, Option.map_some] at hlatency
  refine ⟨_, hlatency, ?_, rankOf_eq _, fun i => ?_, fun xs hxs => ?_⟩
  · rw [deriveLatency_json hw hcount]
  · have hsum : h.buckets.sum < 2 ^ 64 := (hr.consistent h hl').total ▸ hw.count
    exact (List.Sublist.sum_le_sum (List.take_sublist i _) fun _ _ => Nat.zero_le _).trans_lt hsum
  · rw [← rankOf_eq]
    exact bounds_of_realises hw hcount hxs

theorem latency_percentile_sample :
    ∃ e l, derive none Sample.report.json "collector" = .ok e ∧ e.latency = some l ∧
      l.p95Overflow = true ∧ l.p95UpperBoundUs = none := by
  obtain ⟨e, he⟩ := exists_of_isOk
    (by decide +kernel : (derive none Sample.report.json "collector").isOk = true)
  obtain ⟨l, hl, -, -, -, hall⟩ := latency_percentile (by decide +kernel) he
    (h := ⟨2, 10060000, [1, 0, 0, 0, 0, 0, 0, 1]⟩) rfl (by decide)
  obtain ⟨v, hv, hbounds⟩ := hall [4000, 10056000] ⟨rfl, by decide, rfl⟩
  have hlarge : 10000000 < v := by
    cases hv
    decide
  have hover := hbounds.overflow.mpr hlarge
  exact ⟨e, l, he, hl, hover, hbounds.null.mp hover⟩

end Percentile

end Graphlab.Application
