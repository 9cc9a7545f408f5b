import Graphlab.Application.Report

/-!
# Well formed reports

A report by its parts, and the JSON value that it is written as.  `validate` accepts a well formed
report if and only if its latencies are consistent.

## Main definitions

* `Report`, `Report.WellFormed`, `Report.Valid`, `Report.json` — reports by their parts.
* `validate_json` — which well formed reports are accepted.
-/

namespace Graphlab.Application

open Lib

/-! ## Numbers -/

theorem require_eq_ok {condition : Bool} {u : Unit} :
    require condition = .ok u ↔ condition = true := check_eq_ok

theorem require_bind {β : Type} {condition : Bool} (h : condition = true)
    (f : Unit → Except String β) : (require condition >>= f) = f () := check_bind h f

/-- The text of a number. -/
def word (n : ℕ) : Json := .string (toString n)

variable {cs : List Char} {n : ℕ}

theorem canonical_of_digits (hne : cs ≠ []) (hdigits : cs.all Char.isDigit = true)
    (hzero : cs.length = 1 ∨ cs.head? ≠ some '0') : canonical cs = true := by
  cases cs with
  | nil => exact absurd rfl hne
  | cons c cs =>
    rw [canonical, hdigits, Bool.and_true, Bool.or_eq_true, beq_iff_eq, bne_iff_ne]
    by_cases hc : c = '0'
    · rcases hzero with h | h
      · have : cs = [] := by simpa using h
        exact .inl (by rw [this, hc])
      · exact absurd (by rw [hc]; rfl) h
    · exact .inr hc

theorem digits_of_canonical (h : canonical cs = true) :
    cs ≠ [] ∧ cs.all Char.isDigit = true ∧ (cs.length = 1 ∨ cs.head? ≠ some '0') := by
  cases cs with
  | nil => cases h
  | cons =>
    rw [canonical, Bool.or_eq_true, beq_iff_eq, Bool.and_eq_true, bne_iff_ne] at h
    refine ⟨by simp, ?_⟩
    rcases h with h | ⟨hne, h⟩
    · rw [h]
      decide
    · exact ⟨h, .inr (by simpa using hne)⟩

theorem ascii_of_digits (h : cs.all Char.isDigit = true) : ∀ c ∈ cs, c.toNat < 128 := by
  intro c hc
  exact (PlainChar.of_isDigit (List.all_eq_true.mp h c hc)).ascii

/-- The numbers are the canonical decimals of words. -/
theorem number_eq_ok {v : Json} : number v = .ok n ↔ n < 2 ^ 64 ∧ v = word n := by
  cases v with
  | string s =>
    rw [number, bind_eq_ok, word, Json.string.injEq, ← decimal_eq_some]
    constructor
    · rintro ⟨_, hshape, h⟩
      split at h
      · rename_i m hm
        cases h
        simp only [require_eq_ok, Bool.and_eq_true, bne_iff_ne, decide_eq_true_eq,
          Bool.or_eq_true, beq_iff_eq] at hshape
        rw [fromChars] at hm
        split at hm
        · rename_i hchars
          obtain ⟨hne, hdigits, hlt⟩ := hchars
          cases hm
          have hsize : s.utf8ByteSize = s.toList.length := by
            rw [← String.ofList_toList (s := s), utf8ByteSize_ofList_of_ascii
              (ascii_of_digits hdigits), String.toList_ofList]
          refine ⟨hlt, ?_⟩
          rw [decimal, if_pos (canonical_of_digits hne hdigits ?_)]
          rw [hsize] at hshape
          exact hshape.2
        · cases hm
      · cases h
    · rintro ⟨hlt, h⟩
      rw [decimal] at h
      split at h
      · rename_i hcanonical
        cases h
        obtain ⟨hne, hdigits, hzero⟩ := digits_of_canonical hcanonical
        have hsize : s.utf8ByteSize = s.toList.length := by
          rw [← String.ofList_toList (s := s), utf8ByteSize_ofList_of_ascii
            (ascii_of_digits hdigits), String.toList_ofList]
        refine ⟨(), require_eq_ok.mpr ?_, ?_⟩
        · simp only [Bool.and_eq_true, bne_iff_ne, decide_eq_true_eq, Bool.or_eq_true, beq_iff_eq,
            hsize]
          refine ⟨⟨fun hempty => hne (by rw [hempty]; rfl), ?_⟩, hzero⟩
          rw [← toDigits_ofDigitChars hcanonical]
          exact (Nat.length_toDigits_le_iff (by decide) (by decide)).mpr
            (hlt.trans (by decide))
        · rw [fromChars, if_pos ⟨hne, hdigits, hlt⟩]
      · cases h
  | _ => simp [number, word]

theorem number_word (h : n < 2 ^ 64) : number (word n) = .ok n := number_eq_ok.mpr ⟨h, rfl⟩

theorem word_injective : Function.Injective word := by
  intro m n h
  have hm : decimal (toString n) = some m := decimal_eq_some.mpr (Json.string.inj h).symm
  rw [decimal_eq_some.mpr rfl] at hm
  exact (Option.some.inj hm).symm

theorem word_ne_null (n : ℕ) : word n ≠ .null := by simp [word]

theorem numberAt_eq_ok {v : Json} {k : String} :
    numberAt v k = .ok n ↔ n < 2 ^ 64 ∧ v.find? k = some (word n) := by
  rw [numberAt, bind_eq_ok]
  simp only [Json.field_eq_ok, number_eq_ok]
  constructor
  · rintro ⟨x, hx, hn, rfl⟩
    exact ⟨hn, hx⟩
  · rintro ⟨hn, hv⟩
    exact ⟨_, hv, hn, rfl⟩

/-! ## Reports -/

/-- Latencies by their buckets. -/
structure Histogram where
  count : ℕ
  sum : ℕ
  buckets : List ℕ

structure Report where
  /-- The edge and the endpoint that the report is of; none of a node. -/
  edge : Option (String × Endpoint) := none
  stream : String
  epoch : String
  sequence : ℕ
  elapsedNs : ℕ
  counters : Counter → Option ℕ
  latency : Option Histogram := none

namespace Report

variable (r : Report)

def endpoint : Option Endpoint := r.edge.map Prod.snd

/-- The messages that the latencies are of. -/
def messages : ℕ := (r.counters (timed r.endpoint)).getD 0

end Report

/-! ### As JSON -/

def counterJson : Option ℕ → Json
  | some n => word n
  | none => .null

/-- The counters of a report in the order of their keys. -/
def counterOrder : Option Endpoint → List Counter
  | some _ => [.backpressureEvents, .backpressureNs, .errors, .receivedMessages,
      .receivedPayloadBytes, .reconnects, .rejectedMessages, .sentMessages, .sentPayloadBytes]
  | none => [.backpressureEvents, .errors, .receivedMessages, .receivedPayloadBytes,
      .rejectedMessages, .sentMessages, .sentPayloadBytes]

def countersJson (e : Option Endpoint) (values : Counter → Option ℕ) : Json :=
  .object ((counterOrder e).map fun k => (k.key, counterJson (values k)))

def Histogram.json (h : Histogram) : Json :=
  .object [("buckets", .array (h.buckets.map word)), ("count", word h.count),
    ("kind", .string "local-service-time"), ("sumNs", word h.sum)]

def versionOf (e : Option Endpoint) : String := if e.isSome then edgeVersion else nodeVersion

/-- The report as it is written. -/
def Report.json (r : Report) : Json :=
  .object (
    ("apiVersion", .string (versionOf r.endpoint)) ::
    ("counters", countersJson r.endpoint r.counters) ::
    ((r.edge.map fun p => ("edge", Json.string p.1)).toList ++
    ("elapsedNs", word r.elapsedNs) ::
    ((r.edge.map fun p => ("endpoint", Json.string p.2.text)).toList ++
    ("epoch", .string r.epoch) ::
    ((r.latency.map fun h => ("latency", h.json)).toList ++
    [("sequence", word r.sequence), ("stream", .string r.stream)]))))

/-! ### Well formed parts -/

/-- Eight buckets, and all numbers are words. -/
structure Histogram.Words (h : Histogram) : Prop where
  count : h.count < 2 ^ 64
  sum : h.sum < 2 ^ 64
  length : h.buckets.length = 8
  buckets : ∀ n ∈ h.buckets, n < 2 ^ 64

/-- The numbers of a histogram of so many messages agree with each other. -/
structure Histogram.Consistent (h : Histogram) (messages : ℕ) : Prop where
  total : h.buckets.sum = h.count
  count : h.count ≤ messages
  minimum : minSum 0 bounds h.buckets ≤ h.sum
  maximum : 0 < overflow bounds h.buckets ∨ h.sum ≤ maxSum bounds h.buckets

/-- All parts but the latencies are as they must be; these are numbers. -/
structure Report.WellFormed (r : Report) : Prop where
  edge : ∀ p ∈ r.edge, edgeText p.1 = true
  stream : streamText r.stream = true
  epoch : epochText r.epoch = true
  sequence : 0 < r.sequence ∧ r.sequence < 2 ^ 64
  elapsedNs : r.elapsedNs < 2 ^ 64
  words : ∀ k n, r.counters k = some n → n < 2 ^ 64
  present : ∀ k ∈ Application.counters, r.counters k = none → ∃ e ∈ r.endpoint, e.nullable k = true
  foreign : ∀ e ∈ r.endpoint, ∀ k ∈ e.foreign, r.counters k = none
  /-- A node has no counters of edges. -/
  node : r.endpoint = none → ∀ k ∈ edgeCounters, r.counters k = none
  latency : ∀ h ∈ r.latency, h.Words

/-- A report that is accepted. -/
structure Report.Valid (r : Report) : Prop extends r.WellFormed where
  consistent : ∀ h ∈ r.latency, h.Consistent r.messages

/-! ## What is accepted -/

section Accepted

variable {r : Report}

theorem find_counters (e : Option Endpoint) (values : Counter → Option ℕ) {k : Counter}
    (hk : k ∈ counterOrder e) :
    (countersJson e values).find? k.key = some (counterJson (values k)) := by
  cases e <;> cases k <;> first | rfl | simp [counterOrder] at hk

theorem find_json (r : Report) :
    r.json.find? "apiVersion" = some (.string (versionOf r.endpoint)) ∧
    r.json.find? "counters" = some (countersJson r.endpoint r.counters) ∧
    r.json.find? "edge" = r.edge.map (fun p => .string p.1) ∧
    r.json.find? "elapsedNs" = some (word r.elapsedNs) ∧
    r.json.find? "endpoint" = r.edge.map (fun p => .string p.2.text) ∧
    r.json.find? "epoch" = some (.string r.epoch) ∧
    r.json.find? "latency" = r.latency.map Histogram.json ∧
    r.json.find? "sequence" = some (word r.sequence) ∧
    r.json.find? "stream" = some (.string r.stream) := by
  obtain ⟨edge, _, _, _, _, _, latency⟩ := r
  cases edge <;> cases latency <;> exact ⟨rfl, rfl, rfl, rfl, rfl, rfl, rfl, rfl, rfl⟩

theorem mem_counterOrder {e : Option Endpoint} {k : Counter} :
    k ∈ counterOrder e ↔ k ∈ counters ∨ (e.isSome = true ∧ k ∈ edgeCounters) := by
  cases e <;> cases k <;> simp [counterOrder, counters, edgeCounters]

theorem foreign_subset (e : Endpoint) : e.foreign ⊆ counters := by
  cases e <;> decide

/-! ### Buckets -/

/-- The sums of the loop over the buckets. -/
theorem addBuckets_words {lo : ℕ} {bs ns : List ℕ} {t t' : Totals}
    (hlength : ns.length = bs.length + 1) (hwords : ∀ n ∈ ns, n < 2 ^ 64) (ht : t.total < 2 ^ 64) :
    addBuckets lo bs t (ns.map word) = .ok t' ↔ t.total + ns.sum < 2 ^ 64 ∧
      t' = ⟨t.total + ns.sum, t.minimum + minSum lo bs ns, t.maximum + maxSum bs ns⟩ := by
  induction bs generalizing lo ns t with
  | nil =>
    obtain ⟨n, rfl⟩ := List.length_eq_one_iff.mp hlength
    have hn := hwords n (by simp)
    simp only [List.map_cons, List.map_nil, addBuckets, number_word hn, ok_bind, bind_eq_ok,
      require_eq_ok, decide_eq_true_eq, List.sum_cons, List.sum_nil, minSum, maxSum,
      Except.ok.injEq]
    constructor
    · rintro ⟨_, hle, rfl⟩
      exact ⟨by omega, rfl⟩
    · rintro ⟨hlt, rfl⟩
      exact ⟨(), by omega, rfl⟩
  | cons b bs ih =>
    cases ns with
    | nil => simp at hlength
    | cons n ns =>
      have hn := hwords n (by simp)
      have hrest : ∀ m ∈ ns, m < 2 ^ 64 := fun m hm => hwords m (List.mem_cons_of_mem _ hm)
      rw [List.map_cons, addBuckets, number_word hn, ok_bind, bind_eq_ok]
      simp only [require_eq_ok, decide_eq_true_eq, List.sum_cons, minSum, maxSum]
      constructor
      · rintro ⟨_, hle, h⟩
        obtain ⟨hlt, rfl⟩ := (ih (by simpa using hlength) hrest (by simp only; omega)).mp h
        simp only at hlt
        exact ⟨by omega, by simp only [Totals.mk.injEq]; omega⟩
      · rintro ⟨hlt, rfl⟩
        refine ⟨(), by omega, (ih (by simpa using hlength) hrest (by simp only; omega)).mpr ?_⟩
        exact ⟨by simp only; omega, by simp only [Totals.mk.injEq]; omega⟩

theorem maxSum_of_sum_eq_zero {bs ns : List ℕ} (h : ns.sum = 0) : maxSum bs ns = 0 := by
  induction bs generalizing ns with
  | nil => cases ns <;> rfl
  | cons b bs ih =>
    cases ns with
    | nil => rfl
    | cons =>
      rw [List.sum_cons, Nat.add_eq_zero_iff] at h
      rw [maxSum, h.1, ih h.2]
      simp

/-- The latencies of a well formed report pass if and only if they are consistent. -/
theorem validateLatency_json {c : Json} {e : Option Endpoint} {h : Histogram} (hw : h.Words)
    {messages : ℕ} (hm : numberAt c (timed e).key = .ok messages) {u : Unit} :
    validateLatency c e h.json = .ok u ↔ h.Consistent messages := by
  have hkind : h.json.field "kind" = .ok (.string "local-service-time") := rfl
  have hbuckets : h.json.field "buckets" = .ok (.array (h.buckets.map word)) := rfl
  have hcount : numberAt h.json "count" = .ok h.count := numberAt_eq_ok.mpr ⟨hw.count, rfl⟩
  have hsum : numberAt h.json "sumNs" = .ok h.sum := numberAt_eq_ok.mpr ⟨hw.sum, rfl⟩
  have hfields : fields h.json ["kind", "count", "sumNs", "buckets"] = .ok () := rfl
  have hlast : number ((h.buckets.map word).getD 7 .null) = .ok (overflow bounds h.buckets) := by
    have hlt : 7 < h.buckets.length := by rw [hw.length]; decide
    rw [List.getD_eq_getElem?_getD, List.getElem?_map, List.getElem?_eq_getElem hlt, overflow,
      List.getD_eq_getElem?_getD, show bounds.length = 7 from rfl, List.getElem?_eq_getElem hlt]
    exact number_word (hw.buckets _ (List.getElem_mem hlt))
  have hloop : ∀ {t}, addBuckets 0 bounds {} (h.buckets.map word) = .ok t ↔
      h.buckets.sum < 2 ^ 64 ∧
        t = ⟨h.buckets.sum, minSum 0 bounds h.buckets, maxSum bounds h.buckets⟩ := by
    intro t
    rw [addBuckets_words hw.length hw.buckets (by decide)]
    simp only [Nat.zero_add]
  rw [validateLatency, hfields, ok_bind, hkind, ok_bind, require_bind (by decide), hcount, ok_bind,
    hsum, ok_bind, hbuckets, ok_bind, require_bind (by simp [hw.length])]
  simp only [Json.elements, hm, hlast, ok_bind, bind_eq_ok, require_eq_ok, hloop, beq_iff_eq,
    Bool.and_eq_true, Bool.or_eq_true, decide_eq_true_eq, bne_iff_ne]
  constructor
  · rintro ⟨t, ⟨-, rfl⟩, _, htotal, _, ⟨hcount, hmin⟩, _, hmax, -⟩
    exact ⟨htotal, hcount, hmin, hmax⟩
  · intro hc
    refine ⟨_, ⟨hc.total ▸ hw.count, rfl⟩, (), hc.total, (), ⟨hc.count, hc.minimum⟩, (),
      hc.maximum, ?_⟩
    -- without messages there is nothing to add
    by_cases hzero : h.count = 0
    · have hsum := hc.total.trans hzero
      have hlast : overflow bounds h.buckets = 0 := by
        rw [overflow, List.getD_eq_getElem?_getD]
        cases hget : h.buckets[bounds.length]? with
        | none => rfl
        | some n => exact List.sum_eq_zero_iff.mp hsum n (List.mem_of_getElem? hget)
      rcases hc.maximum with hpos | hle
      · omega
      · rw [maxSum_of_sum_eq_zero hsum] at hle
        exact .inr (Nat.le_zero.mp hle)
    · exact .inl hzero

/-! ### Counters -/

theorem validateCounters_json (hr : r.WellFormed) :
    validateCounters (countersJson r.endpoint r.counters) r.endpoint = .ok () := by
  have hfind : ∀ k, k ∈ counters ∨ (r.endpoint.isSome = true ∧ k ∈ edgeCounters) →
      (countersJson r.endpoint r.counters).field k.key = .ok (counterJson (r.counters k)) :=
    fun k hk => Json.field_eq_ok.mpr (find_counters _ _ (mem_counterOrder.mpr hk))
  have hnumber : ∀ k n, r.counters k = some n → number (counterJson (r.counters k)) = .ok n := by
    intro k n hn
    rw [hn]
    exact number_word (hr.words k n hn)
  have hshape : validateShape (countersJson r.endpoint r.counters) r.endpoint = .ok () := by
    cases he : r.endpoint with
    | none => rfl
    | some e =>
      rw [he] at hfind
      rw [validateShape, show fields (countersJson (some e) r.counters)
        ((counters ++ edgeCounters).map Counter.key) = .ok () from rfl, ok_bind]
      refine bind_eq_ok.mpr ⟨(), each_eq_ok.mpr fun k hk => ?_, each_eq_ok.mpr fun k hk => ?_⟩
      · rw [validateEdgeCounter, hfind k (.inr ⟨rfl, hk⟩), ok_bind]
        cases hn : r.counters k with
        | none => rfl
        | some n => rw [← hn, if_neg (by simp [hn, counterJson, word]), hnumber k n hn, ok_bind]; rfl
      · rw [validateForeign, hfind k (.inl (foreign_subset e hk)), ok_bind, hr.foreign e he k hk]
        rfl
  rw [validateCounters, hshape, ok_bind]
  refine each_eq_ok.mpr fun k hk => ?_
  rw [validateCounter, hfind k (.inl hk), ok_bind]
  cases hn : r.counters k with
  | none =>
    obtain ⟨_, he, hnull⟩ := hr.present k hk hn
    rw [he]
    exact require_eq_ok.mpr hnull
  | some n =>
    have hok := hnumber k n hn
    rw [hn] at hok
    cases r.endpoint with
    | none => exact bind_eq_ok.mpr ⟨n, hok, rfl⟩
    | some => exact bind_eq_ok.mpr ⟨n, hok, rfl⟩

theorem numberAt_messages (hr : r.WellFormed) :
    numberAt (countersJson r.endpoint r.counters) (timed r.endpoint).key = .ok r.messages := by
  have hin : timed r.endpoint ∈ counters := by
    cases r.endpoint with
    | none => decide
    | some e => cases e <;> decide
  cases hn : r.counters (timed r.endpoint) with
  | none =>
    obtain ⟨e, he, hnull⟩ := hr.present _ hin hn
    rw [Option.mem_def.mp he] at hnull
    cases e <;> cases hnull
  | some n =>
    rw [numberAt_eq_ok, find_counters _ _ (mem_counterOrder.mpr (.inl hin)), Report.messages, hn]
    exact ⟨hr.words _ n hn, rfl⟩

/-! ### Sizes -/

variable {s : String} {c : Char}

theorem quotedSize_of_matchText {first rest : Char → Bool}
    (hfirst : ∀ c, first c = true → PlainChar c) (hrest : ∀ c, rest c = true → PlainChar c)
    (h : matchText first rest n s = true) : Json.quotedSize s ≤ n + 3 := by
  rw [matchText] at h
  split at h
  · cases h
  · rename_i c cs heq
    simp only [Bool.and_eq_true, decide_eq_true_eq, List.all_eq_true] at h
    obtain ⟨⟨hc, _⟩, hcs⟩ := h
    rw [quotedSize_of_plain, heq, List.length_cons]
    · omega
    · rw [heq]
      exact List.forall_mem_cons.mpr ⟨hfirst c hc, fun d hd => hrest d (hcs d hd)⟩

theorem plain_of_range {lo hi : Char} (h : (lo ≤ c && c ≤ hi) = true) (hlo : 48 ≤ lo.toNat)
    (hhi : hi.toNat < 128) (hback : hi.toNat < 92 ∨ 92 < lo.toNat) : PlainChar c := by
  simp only [Bool.and_eq_true, decide_eq_true_eq, Char.le_def, UInt32.le_iff_toNat_le] at h
  have hge : lo.toNat ≤ c.toNat := h.1
  have hle : c.toNat ≤ hi.toNat := h.2
  refine ⟨by omega, by omega, ?_, ?_⟩
  · rintro rfl
    exact absurd (hlo.trans hge) (by decide)
  · rintro rfl
    have hvalue : '\\'.toNat = 92 := by decide
    omega

theorem plain_of_lower (h : lower c = true) : PlainChar c :=
  plain_of_range h (by decide) (by decide) (by decide)

theorem plain_of_upper (h : upper c = true) : PlainChar c :=
  plain_of_range h (by decide) (by decide) (by decide)

theorem plain_of_digit (h : digit c = true) : PlainChar c :=
  plain_of_range h (by decide) (by decide) (by decide)

theorem plain_of_beq {d : Char} (h : (c == d) = true) (hd : PlainChar d) : PlainChar c :=
  beq_iff_eq.mp h ▸ hd

theorem quotedSize_edge (h : edgeText s = true) : Json.quotedSize s ≤ 66 := by
  refine quotedSize_of_matchText (fun c hc => ?_) (fun c hc => ?_) h
  · rcases Bool.or_eq_true_iff.mp hc with hc | hc
    · exact plain_of_upper hc
    · exact plain_of_lower hc
  · simp only [Bool.or_eq_true] at hc
    rcases hc with (((hc | hc) | hc) | hc) | hc
    · exact plain_of_upper hc
    · exact plain_of_lower hc
    · exact plain_of_digit hc
    · exact plain_of_beq hc ⟨by decide, by decide, by decide, by decide⟩
    · exact plain_of_beq hc ⟨by decide, by decide, by decide, by decide⟩

theorem quotedSize_stream (h : streamText s = true) : Json.quotedSize s ≤ 34 := by
  refine quotedSize_of_matchText (fun c hc => plain_of_lower hc) (fun c hc => ?_) h
  simp only [Bool.or_eq_true] at hc
  rcases hc with (hc | hc) | hc
  · exact plain_of_lower hc
  · exact plain_of_digit hc
  · exact plain_of_beq hc ⟨by decide, by decide, by decide, by decide⟩

theorem quotedSize_epoch (h : epochText s = true) : Json.quotedSize s = 34 := by
  simp only [epochText, Bool.and_eq_true, beq_iff_eq, List.all_eq_true, Bool.or_eq_true] at h
  rw [quotedSize_of_plain, h.1]
  intro c hc
  rcases h.2 c hc with hc | hc
  · exact plain_of_range (Bool.and_eq_true_iff.mpr hc) (by decide) (by decide) (by decide)
  · exact plain_of_digit hc

theorem dumpSize_word (h : n < 2 ^ 64) : (word n).dumpSize ≤ 22 := by
  rw [word, Json.dumpSize_string]
  exact quotedSize_toString_le (by decide) (h.trans (by decide))

theorem dumpSize_counter (hr : r.WellFormed) (k : Counter) :
    (counterJson (r.counters k)).dumpSize ≤ 22 := by
  cases hn : r.counters k with
  | none => exact (by decide : (4 : ℕ) ≤ 22)
  | some n => exact dumpSize_word (hr.words k n hn)

theorem fieldsSize_counters (hr : r.WellFormed) (ks : List Counter) :
    Json.fieldsSize (ks.map fun k => (k.key, counterJson (r.counters k))) ≤ 46 * ks.length := by
  induction ks with
  | nil => simp
  | cons k ks ih =>
    have hvalue := dumpSize_counter hr k
    have hkey : Json.quotedSize k.key ≤ 22 := by cases k <;> decide
    rw [List.map_cons, Json.fieldsSize_cons, List.length_cons]
    omega

theorem dumpSize_counters (hr : r.WellFormed) :
    (countersJson r.endpoint r.counters).dumpSize ≤ 415 := by
  have hfields := fieldsSize_counters hr (counterOrder r.endpoint)
  have hlength : (counterOrder r.endpoint).length ≤ 9 := by
    cases r.endpoint with
    | none => decide
    | some => exact (by decide : 9 ≤ 9)
  rw [countersJson]
  cases hlist : (counterOrder r.endpoint).map fun k => (k.key, counterJson (r.counters k)) with
  | nil => decide
  | cons =>
    rw [hlist] at hfields
    rw [Json.dumpSize_object]
    omega

theorem valuesSize_words {ns : List ℕ} (h : ∀ n ∈ ns, n < 2 ^ 64) :
    Json.valuesSize (ns.map word) ≤ 23 * ns.length := by
  induction ns with
  | nil => exact Nat.le_refl 0
  | cons n ns ih =>
    rw [List.forall_mem_cons] at h
    have hvalue := dumpSize_word h.1
    have hrest := ih h.2
    rw [List.map_cons, Json.valuesSize, List.length_cons]
    omega

theorem Histogram.Words.dumpSize {h : Histogram} (hw : h.Words) : h.json.dumpSize ≤ 300 := by
  have hbuckets : (Json.array (h.buckets.map word)).dumpSize ≤ 186 := by
    have hvalues := valuesSize_words hw.buckets
    rw [hw.length] at hvalues
    cases hlist : h.buckets.map word with
    | nil => exact (by decide : (2 : ℕ) ≤ 186)
    | cons =>
      rw [hlist] at hvalues
      rw [Json.dumpSize]
      omega
  have hcount := dumpSize_word hw.count
  have hsum := dumpSize_word hw.sum
  have hkeys : Json.quotedSize "buckets" = 9 ∧ Json.quotedSize "count" = 7 ∧
      Json.quotedSize "kind" = 6 ∧ Json.quotedSize "sumNs" = 7 ∧
      Json.quotedSize "local-service-time" = 20 := by decide
  simp only [Histogram.json, Json.dumpSize_object, Json.fieldsSize_cons, Json.fieldsSize_nil,
    Json.dumpSize_string, hkeys]
  omega

theorem fieldsSize_append (fs gs : List (String × Json)) :
    Json.fieldsSize (fs ++ gs) = Json.fieldsSize fs + Json.fieldsSize gs := by
  induction fs with
  | nil => simp
  | cons f fs ih =>
    rw [List.cons_append, Json.fieldsSize_cons, Json.fieldsSize_cons, ih]
    omega

/-- A field that may be missing. -/
theorem fieldsSize_optional {α : Type} (o : Option α) (k : String) (f : α → Json)
    (h : ∀ a ∈ o, (f a).dumpSize ≤ n) :
    Json.fieldsSize (o.map fun a => (k, f a)).toList ≤ Json.quotedSize k + n + 2 := by
  cases o with
  | none => simp
  | some a =>
    have := h a rfl
    simp only [Option.map_some, Option.toList_some, Json.fieldsSize_cons, Json.fieldsSize_nil]
    omega

/-- A well formed report is never too long. -/
theorem Report.WellFormed.dumpSize (hr : r.WellFormed) : r.json.dumpSize ≤ maxReportBytes := by
  have hcounters := dumpSize_counters hr
  have hstream := quotedSize_stream hr.stream
  have hepoch := quotedSize_epoch hr.epoch
  have hsequence := dumpSize_word hr.sequence.2
  have helapsed := dumpSize_word hr.elapsedNs
  have hversion : Json.quotedSize (versionOf r.endpoint) ≤ 40 := by
    cases r.endpoint with
    | none => exact (by decide : Json.quotedSize nodeVersion ≤ 40)
    | some => exact (by decide : Json.quotedSize edgeVersion ≤ 40)
  have hedge := fieldsSize_optional r.edge "edge" (fun p => .string p.1) fun p hp =>
    (Json.dumpSize_string _).trans_le (quotedSize_edge (hr.edge p hp))
  have hend := fieldsSize_optional r.edge "endpoint" (fun p => .string p.2.text) (n := 8)
    fun p _ => by cases p.2 <;> decide
  have hlatency := fieldsSize_optional r.latency "latency" Histogram.json fun h hl =>
    (hr.latency h hl).dumpSize
  have hkeys : Json.quotedSize "apiVersion" = 12 ∧ Json.quotedSize "counters" = 10 ∧
      Json.quotedSize "edge" = 6 ∧ Json.quotedSize "elapsedNs" = 11 ∧
      Json.quotedSize "endpoint" = 10 ∧ Json.quotedSize "epoch" = 7 ∧
      Json.quotedSize "latency" = 9 ∧ Json.quotedSize "sequence" = 10 ∧
      Json.quotedSize "stream" = 8 := by decide
  simp only [Report.json, Json.dumpSize_object, Json.fieldsSize_cons, fieldsSize_append,
    Json.fieldsSize_nil, Json.dumpSize_string, hkeys, maxReportBytes]
  omega

/-! ### Whole reports -/

@[simp] theorem isText_string (p : String → Bool) (s : String) : isText p (.string s) = p s := rfl

theorem isText_iff {p : String → Bool} {v : Json} :
    isText p v = true ↔ ∃ s, v = .string s ∧ p s = true := by
  cases v <;> simp [isText]

theorem validateKind_json (hr : r.WellFormed) : validateKind r.json = .ok r.endpoint := by
  obtain ⟨hversion, -, hedge, -, hend, -⟩ := find_json r
  rw [validateKind, Json.field_eq_ok.mpr hversion, ok_bind]
  cases he : r.edge with
  | none =>
    have hnone : r.endpoint = none := by rw [Report.endpoint, he]; rfl
    have hfields : fields r.json ["apiVersion", "stream", "epoch", "sequence", "elapsedNs",
        "counters", "latency"] = .ok () := by
      rw [Report.json, he]
      cases r.latency <;> rfl
    rw [hnone, if_neg (by decide), hfields, ok_bind]
    rfl
  | some p =>
    have hsome : r.endpoint = some p.2 := by rw [Report.endpoint, he]; rfl
    have hfields : fields r.json ["apiVersion", "stream", "epoch", "sequence", "elapsedNs",
        "counters", "latency", "edge", "endpoint"] = .ok () := by
      rw [Report.json, he]
      cases r.latency <;> rfl
    rw [he, Option.map_some] at hedge hend
    have hendpoint : endpointOf (.string p.2.text) = some p.2 := by cases p.2 <;> rfl
    have hversion : Json.string (versionOf (some p.2)) = .string edgeVersion := rfl
    rw [hsome, if_pos hversion, hfields, ok_bind, Json.field_eq_ok.mpr hedge, ok_bind,
      require_bind (by simpa using hr.edge p he), Json.field_eq_ok.mpr hend, ok_bind, hendpoint]
    rfl

/-- **Well formed reports.**  One is accepted if and only if its latencies are consistent. -/
theorem validate_json (hr : r.WellFormed) {j : Json} :
    validate r.json = .ok j ↔ j = r.json ∧ ∀ h ∈ r.latency, h.Consistent r.messages := by
  obtain ⟨-, hcounters, -, helapsed, -, hepoch, hlatency, hsequence, hstream⟩ := find_json r
  rw [validate, require_bind (by simpa using hr.dumpSize), validateKind_json hr, ok_bind,
    Json.field_eq_ok.mpr hstream, ok_bind, require_bind (by simpa using hr.stream), Json.field_eq_ok.mpr hepoch,
    ok_bind, require_bind (by simpa using hr.epoch), numberAt_eq_ok.mpr ⟨hr.sequence.2, hsequence⟩, ok_bind,
    require_bind (by simpa using hr.sequence.1), numberAt_eq_ok.mpr ⟨hr.elapsedNs, helapsed⟩,
    ok_bind, Json.field_eq_ok.mpr hcounters, ok_bind, validateCounters_json hr, ok_bind, hlatency,
    bind_eq_ok]
  cases hl : r.latency with
  | none =>
    constructor
    · rintro ⟨_, -, h⟩
      cases h
      exact ⟨rfl, by simp⟩
    · rintro ⟨rfl, -⟩
      exact ⟨(), rfl, rfl⟩
  | some h =>
    have hiff := validateLatency_json (hr.latency h hl) (numberAt_messages hr) (u := ())
    constructor
    · rintro ⟨_, hok, hj⟩
      cases hj
      exact ⟨rfl, by simpa using hiff.mp hok⟩
    · rintro ⟨rfl, hok⟩
      exact ⟨(), hiff.mpr (hok h rfl), rfl⟩

end Accepted

end Graphlab.Application
