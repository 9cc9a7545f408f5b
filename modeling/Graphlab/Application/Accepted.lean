import Graphlab.Application.WellFormed

/-!
# Accepted reports

Every value that `validate` accepts is that of a valid report, so a report may be taken by its
parts; and `derive` accepts a report after one of the same epoch if and only if it follows that
one part by part.

## Main results

* `validate_eq_ok` — what `validate` accepts.
* `Report.Follows`, `derive_isOk` — what `derive` accepts.
-/

namespace Graphlab.Application

open Lib

/-! ## Values of reports -/

variable {u : Unit} {k : Counter}

section Accepted

variable {r : Report}

theorem addBuckets_eq_ok {lo : ℕ} {bs : List ℕ} {t t' : Totals} {vs : List Json}
    (h : addBuckets lo bs t vs = .ok t') : ∃ ns : List ℕ, vs = ns.map word ∧ ∀ n ∈ ns, n < 2 ^ 64 := by
  induction vs generalizing lo bs t with
  | nil => exact ⟨[], rfl, by simp⟩
  | cons v vs ih =>
    obtain ⟨n, hn, hrest⟩ := bind_eq_ok.mp h
    obtain ⟨_, -, hrest⟩ := bind_eq_ok.mp hrest
    obtain ⟨hlt, rfl⟩ := number_eq_ok.mp hn
    have hrest : ∃ ns : List ℕ, vs = ns.map word ∧ ∀ n ∈ ns, n < 2 ^ 64 := by
      clear h
      cases bs with
      | nil => exact ih hrest
      | cons => exact ih hrest
    obtain ⟨ns, rfl, hns⟩ := hrest
    exact ⟨n :: ns, rfl, List.forall_mem_cons.mpr ⟨hlt, hns⟩⟩

theorem fields_eq_ok {v : Json} {allowed : List String} :
    fields v allowed = .ok u ↔ ∃ fs, v = .object fs ∧ ∀ f ∈ fs, f.1 ∈ allowed := by
  cases v with
  | object => simp [fields, require_eq_ok]
  | _ => simp [fields, require_eq_ok]

variable {c : Json} {e : Option Endpoint}

theorem exists_histogram {l : Json} (hl : l.Ordered)
    (h : validateLatency c e l = .ok u) : ∃ x : Histogram, x.Words ∧ x.json = l := by
  simp only [validateLatency, bind_eq_ok] at h
  obtain ⟨_, hfields, kind, hkind, _, hlocal, count, hcount, sum, hsum, b, hb, _, harray, t, ht,
    -⟩ := h
  rw [require_eq_ok] at harray
  cases b with
  | array vs =>
    obtain ⟨ns, hns, hwords⟩ := addBuckets_eq_ok ht
    obtain ⟨hcount64, hcount⟩ := numberAt_eq_ok.mp hcount
    obtain ⟨hsum64, hsum⟩ := numberAt_eq_ok.mp hsum
    rw [fields_eq_ok] at hfields
    obtain ⟨_, rfl, hkeys⟩ := hfields
    change vs = ns.map word at hns
    subst hns
    refine ⟨⟨count, sum, ns⟩, ⟨hcount64, hsum64, by simpa using harray, hwords⟩, ?_⟩
    rw [Json.field_eq_ok] at hkind hb
    rw [require_eq_ok, decide_eq_true_eq] at hlocal
    rw [hlocal] at hkind
    refine congrArg Json.object (Json.Ordered.object_eq hl ?_ ?_ ?_).symm
    · show ["buckets", "count", "kind", "sumNs"].Pairwise (· < ·)
      decide
    · intro f hf
      have := hkeys f hf
      simp only [List.mem_cons, List.not_mem_nil, or_false] at this
      simp only [List.map_cons, List.map_nil, List.mem_cons, List.not_mem_nil, or_false]
      tauto
    · simp only [List.forall_mem_cons]
      exact ⟨hb, hcount, hkind, hsum, by simp⟩
  | _ => cases harray

theorem keys_counterOrder (e : Option Endpoint) :
    ((counterOrder e).map Counter.key).Pairwise (· < ·) := by
  cases e with
  | none => decide
  | some => exact (by decide : ((counterOrder (some .source)).map Counter.key).Pairwise (· < ·))

/-- The counters of a value. -/
def readCounter (c : Json) (k : Counter) : Option ℕ :=
  (c.find? k.key).bind fun v => (number v).toOption

theorem readCounter_of_find {v : Json} (hv : c.find? k.key = some v) :
    readCounter c k = (number v).toOption :=
  congrArg (Option.bind · fun v => (number v).toOption) hv

theorem counterJson_readCounter {v : Json} (hv : c.find? k.key = some v)
    (h : v = .null ∨ ∃ n, number v = .ok n) :
    v = counterJson (readCounter c k) ∧ ∀ n, readCounter c k = some n → n < 2 ^ 64 := by
  rw [readCounter_of_find hv]
  rcases h with rfl | ⟨n, hn⟩
  · exact ⟨rfl, fun n hn => by cases hn⟩
  · obtain ⟨hlt, rfl⟩ := number_eq_ok.mp hn
    simp only [hn, Except.toOption, Option.some.injEq]
    exact ⟨rfl, by rintro m rfl; exact hlt⟩

theorem validateEdgeCounter_eq_ok (h : validateEdgeCounter c k = .ok u) :
    ∃ v, c.find? k.key = some v ∧ (v = .null ∨ ∃ n, number v = .ok n) := by
  obtain ⟨v, hv, h⟩ := bind_eq_ok.mp h
  refine ⟨v, Json.field_eq_ok.mp hv, ?_⟩
  split at h
  · rename_i hnull
    exact .inl hnull
  · obtain ⟨n, hn, -⟩ := bind_eq_ok.mp h
    exact .inr ⟨n, hn⟩

theorem validateCounter_eq_ok (h : validateCounter c e k = .ok u) :
    ∃ v, c.find? k.key = some v ∧
      ((v = .null ∧ ∃ p ∈ e, p.nullable k = true) ∨ ∃ n, number v = .ok n) := by
  obtain ⟨v, hv, h⟩ := bind_eq_ok.mp h
  refine ⟨v, Json.field_eq_ok.mp hv, ?_⟩
  cases e with
  | none =>
    obtain ⟨n, hn, -⟩ := bind_eq_ok.mp h
    exact .inr ⟨n, hn⟩
  | some p =>
    dsimp only at h
    split at h
    · rename_i hnull
      exact .inl ⟨hnull, p, rfl, require_eq_ok.mp h⟩
    · obtain ⟨n, hn, -⟩ := bind_eq_ok.mp h
      exact .inr ⟨n, hn⟩

/-- The shape of accepted counters: the keys, and what is null. -/
theorem validateShape_eq_ok (h : validateShape c e = .ok u) :
    (∃ fs, c = .object fs ∧ ∀ f ∈ fs, f.1 ∈ (counterOrder e).map Counter.key) ∧
    (e.isSome = true → ∀ k ∈ edgeCounters, ∃ v, c.find? k.key = some v ∧
      (v = .null ∨ ∃ n, number v = .ok n)) ∧
    ∀ p ∈ e, ∀ k ∈ p.foreign, c.find? k.key = some .null := by
  cases e with
  | none =>
    obtain ⟨fs, rfl, hkeys⟩ := fields_eq_ok.mp h
    refine ⟨⟨fs, rfl, fun f hf => ?_⟩, by simp, by simp⟩
    obtain ⟨k, hk, heq⟩ := List.mem_map.mp (hkeys f hf)
    exact heq ▸ List.mem_map_of_mem (mem_counterOrder.mpr (.inl hk))
  | some =>
    obtain ⟨_, hfields, h⟩ := bind_eq_ok.mp h
    obtain ⟨_, hedge, hforeign⟩ := bind_eq_ok.mp h
    rw [fields_eq_ok] at hfields
    obtain ⟨fs, rfl, hkeys⟩ := hfields
    refine ⟨⟨fs, rfl, fun f hf => ?_⟩, fun _ k hk => ?_, ?_⟩
    · obtain ⟨k, hk, heq⟩ := List.mem_map.mp (hkeys f hf)
      refine heq ▸ List.mem_map_of_mem (mem_counterOrder.mpr ?_)
      exact (List.mem_append.mp hk).imp_right fun hk => ⟨rfl, hk⟩
    · exact validateEdgeCounter_eq_ok (each_eq_ok.mp hedge k hk)
    · intro q hq k hk
      cases Option.mem_def.mp hq
      obtain ⟨_, hv, hnull⟩ := bind_eq_ok.mp (each_eq_ok.mp hforeign k hk)
      rw [require_eq_ok, decide_eq_true_eq] at hnull
      rw [← hnull]
      exact Json.field_eq_ok.mp hv

theorem exists_counters (hc : c.Ordered) (h : validateCounters c e = .ok u) :
    ∃ values : Counter → Option ℕ, countersJson e values = c ∧
      (∀ k n, values k = some n → n < 2 ^ 64) ∧
      (∀ k ∈ counters, values k = none → ∃ p ∈ e, p.nullable k = true) ∧
      (∀ p ∈ e, ∀ k ∈ p.foreign, values k = none) ∧
      (e = none → ∀ k ∈ edgeCounters, values k = none) := by
  obtain ⟨_, hshape, hall⟩ := bind_eq_ok.mp h
  obtain ⟨⟨fs, rfl, hkeys⟩, hedge, hforeign⟩ := validateShape_eq_ok hshape
  have hcounter := fun k hk => validateCounter_eq_ok (each_eq_ok.mp hall k hk)
  have hread : ∀ k ∈ counterOrder e, ∃ v, (Json.object fs).find? k.key = some v ∧
      (v = .null ∨ ∃ n, number v = .ok n) := by
    intro k hk
    rcases mem_counterOrder.mp hk with hk | ⟨he, hk⟩
    · obtain ⟨v, hv, h⟩ := hcounter k hk
      exact ⟨v, hv, h.imp_left And.left⟩
    · exact hedge he k hk
  let values k := if k ∈ counterOrder e then readCounter (.object fs) k else none
  have hvalues : ∀ k ∈ counterOrder e, values k = readCounter (.object fs) k :=
    fun k hk => if_pos hk
  refine ⟨values, ?_, fun k n hn => ?_, fun k hk hnone => ?_, fun p hp k hk => ?_, fun he k hk => ?_⟩
  · refine congrArg Json.object (Json.Ordered.object_eq hc ?_ ?_ ?_).symm
    · rw [List.map_map]
      exact keys_counterOrder e
    · rw [List.map_map]
      exact hkeys
    · refine List.forall_mem_map.mpr fun k hk => ?_
      obtain ⟨v, hv, h⟩ := hread k hk
      rw [hvalues k hk, ← (counterJson_readCounter hv h).1]
      exact hv
  · by_cases hk : k ∈ counterOrder e
    · obtain ⟨v, hv, h⟩ := hread k hk
      rw [hvalues k hk] at hn
      exact (counterJson_readCounter hv h).2 n hn
    · rw [show values k = none from if_neg hk] at hn
      cases hn
  · obtain ⟨_, hv, h⟩ := hcounter k hk
    rcases h with ⟨-, h⟩ | ⟨n, hn⟩
    · exact h
    · rw [hvalues k (mem_counterOrder.mpr (.inl hk)), readCounter_of_find hv, hn] at hnone
      cases hnone
  · rw [hvalues k (mem_counterOrder.mpr (.inl (foreign_subset p hk))),
      readCounter_of_find (hforeign p hp k hk)]
    rfl
  · refine if_neg fun hin => ?_
    rw [he] at hin
    cases k <;> simp [counterOrder, edgeCounters] at hin hk

/-- The kind of an accepted value. -/
theorem validateKind_eq_ok {j : Json} (h : validateKind j = .ok e) :
    ∃ (edge : Option (String × Endpoint)) (fs : List (String × Json)), j = .object fs ∧
      e = edge.map Prod.snd ∧
      (∀ p ∈ edge, edgeText p.1 = true) ∧
      j.find? "apiVersion" = some (.string (versionOf e)) ∧
      (∀ p ∈ edge, j.find? "edge" = some (.string p.1) ∧ j.find? "endpoint" = some (.string p.2.text)) ∧
      ∀ f ∈ fs, f.1 ∈ ["apiVersion", "stream", "epoch", "sequence", "elapsedNs", "counters",
        "latency"] ++ if edge.isSome then ["edge", "endpoint"] else [] := by
  obtain ⟨_, hversion, h⟩ := bind_eq_ok.mp h
  rw [Json.field_eq_ok] at hversion
  split at h
  · rename_i heq
    simp only [bind_eq_ok] at h
    obtain ⟨_, hfields, v, hv, _, htext, x, hx, _, hsome, hdone⟩ := h
    rw [fields_eq_ok] at hfields
    obtain ⟨fs, rfl, hkeys⟩ := hfields
    rw [require_eq_ok] at htext hsome
    rw [Json.field_eq_ok] at hv hx
    cases hdone
    obtain ⟨p, hp⟩ := Option.isSome_iff_exists.mp hsome
    have hend : x = .string p.text := by
      rw [endpointOf] at hp
      split at hp
      · rename_i hx
        cases hp
        exact hx
      · split at hp
        · rename_i hx
          cases hp
          exact hx
        · cases hp
    cases v with
    | string name =>
      rw [hp]
      refine ⟨some (name, p), fs, rfl, rfl, by simpa using htext, ?_, ?_, hkeys⟩
      · rw [hversion, heq]
        rfl
      · intro q hq
        cases Option.mem_def.mp hq
        exact ⟨hv, by rw [hx, hend]⟩
    | _ => cases htext
  · obtain ⟨_, hfields, h⟩ := bind_eq_ok.mp h
    obtain ⟨_, hnode, hdone⟩ := bind_eq_ok.mp h
    rw [fields_eq_ok] at hfields
    obtain ⟨fs, rfl, hkeys⟩ := hfields
    rw [require_eq_ok, decide_eq_true_eq] at hnode
    cases hdone
    exact ⟨none, fs, rfl, rfl, by simp, by rw [hversion, hnode]; rfl, by simp, by simpa using hkeys⟩

/-- The keys of reports. -/
def reportKeys : List String :=
  ["apiVersion", "counters", "edge", "elapsedNs", "endpoint", "epoch", "latency", "sequence",
    "stream"]

theorem json_keys (r : Report) :
    ∃ gs, r.json = .object gs ∧ (gs.map Prod.fst).Sublist reportKeys := by
  refine ⟨_, rfl, ?_⟩
  cases r.edge <;> cases r.latency <;>
    exact List.isSublist_iff_sublist.mp rfl

/-- A value with the fields of a report and no others. -/
theorem eq_json {fs : List (String × Json)} (hfs : (Json.object fs).Ordered) (r : Report)
    (hkeys : ∀ f ∈ fs, f.1 ∈ reportKeys)
    (hfind : ∀ k ∈ reportKeys, (Json.object fs).find? k = r.json.find? k) :
    r.json = .object fs := by
  obtain ⟨_, hgs, hsub⟩ := json_keys r
  have hsorted : reportKeys.Pairwise (· < ·) := by decide
  have hgsSorted := hsorted.sublist hsub
  rw [hgs] at hfind ⊢
  refine congrArg Json.object (Json.Ordered.object_eq hfs hgsSorted (fun f hf => ?_) fun g hg => ?_).symm
  · by_contra hnot
    have hnone := hfind f.1 (hkeys f hf)
    rw [Json.find?_object, Json.find?_object, lookup_eq_none.mpr hnot, lookup_eq_none] at hnone
    exact hnone (List.mem_map_of_mem hf)
  · rw [hfind g.1 (hsub.subset (List.mem_map_of_mem hg)), Json.find?_object]
    exact lookup_of_mem (hgsSorted.imp ne_of_lt) hg

/-- An accepted value is that of a well formed report. -/
theorem exists_report {j j' : Json} (hj : j.Ordered) (h : validate j = .ok j') :
    j' = j ∧ ∃ r : Report, r.WellFormed ∧ r.json = j := by
  simp only [validate, bind_eq_ok] at h
  obtain ⟨-, -, e, hkind, v, hstream, _, hstreamText, w, hepoch, _, hepochText, sequence, hsequence,
    _, hpos, elapsed, helapsed, c, hc, _, hcounters, _, hlatency, hdone⟩ := h
  cases hdone
  refine ⟨rfl, ?_⟩
  obtain ⟨edge, fs, rfl, rfl, hedge, hversion, hends, hkeys⟩ := validateKind_eq_ok hkind
  rw [Json.field_eq_ok] at hstream hepoch hc
  obtain ⟨stream, rfl, hstreamOk⟩ := isText_iff.mp (require_eq_ok.mp hstreamText)
  obtain ⟨epoch, rfl, hepochOk⟩ := isText_iff.mp (require_eq_ok.mp hepochText)
  obtain ⟨hsequence64, hsequence⟩ := numberAt_eq_ok.mp hsequence
  obtain ⟨helapsed64, helapsed⟩ := numberAt_eq_ok.mp helapsed
  rw [require_eq_ok, decide_eq_true_eq] at hpos
  obtain ⟨values, rfl, hwords, hpresent, hforeign, hnode⟩ := exists_counters (hj.find? hc) hcounters
  have hhistogram : ∃ latency : Option Histogram, (∀ x ∈ latency, x.Words) ∧
      (Json.object fs).find? "latency" = latency.map Histogram.json := by
    cases hl : (Json.object fs).find? "latency" with
    | none => exact ⟨none, by simp, rfl⟩
    | some =>
      rw [hl] at hlatency
      obtain ⟨x, hx, rfl⟩ := exists_histogram (hj.find? hl) hlatency
      exact ⟨some x, by simpa using hx, rfl⟩
  obtain ⟨latency, hlatencyWords, hlatency⟩ := hhistogram
  have hmissing : edge = none → ∀ k ∈ ["edge", "endpoint"], (Json.object fs).find? k = none := by
    intro hnone k hk
    rw [Json.find?_object, lookup_eq_none]
    intro hin
    obtain ⟨f, hf, hkey⟩ := List.mem_map.mp hin
    have hallowed := hkeys f hf
    rw [hkey, hnone] at hallowed
    rcases List.mem_pair.mp hk with rfl | rfl <;> exact absurd hallowed (by decide)
  refine ⟨⟨edge, stream, epoch, sequence, elapsed, values, latency⟩, ⟨hedge, hstreamOk, hepochOk,
    ⟨hpos, hsequence64⟩, helapsed64, hwords, hpresent, hforeign, hnode, hlatencyWords⟩,
    eq_json hj _ (fun f hf => ?_) ?_⟩
  · have hsub : ["apiVersion", "stream", "epoch", "sequence", "elapsedNs", "counters", "latency"] ++
        (if edge.isSome then ["edge", "endpoint"] else []) ⊆ reportKeys := by
      cases edge with
      | none => decide
      | some => exact (by decide : ["apiVersion", "stream", "epoch", "sequence", "elapsedNs",
          "counters", "latency"] ++ ["edge", "endpoint"] ⊆ reportKeys)
    exact hsub (hkeys f hf)
  · obtain ⟨hversion', hcounters', hedge', helapsed', hend', hepoch', hlatency', hsequence',
      hstream'⟩ := find_json ⟨edge, stream, epoch, sequence, elapsed, values, latency⟩
    simp only [reportKeys, List.forall_mem_cons]
    refine ⟨hversion.trans hversion'.symm, hc.trans hcounters'.symm, ?_,
      helapsed.trans helapsed'.symm, ?_, hepoch.trans hepoch'.symm, hlatency.trans hlatency'.symm,
      hsequence.trans hsequence'.symm, hstream.trans hstream'.symm, by simp⟩
    · rw [hedge']
      cases edge with
      | none => exact hmissing rfl _ (by simp)
      | some p => exact (hends p rfl).1
    · rw [hend']
      cases edge with
      | none => exact hmissing rfl _ (by simp)
      | some p => exact (hends p rfl).2

/-- **Accepted reports.**  `validate` accepts the values of valid reports, and no others. -/
theorem validate_eq_ok {j j' : Json} (hj : j.Ordered) :
    validate j = .ok j' ↔ j' = j ∧ ∃ r : Report, r.Valid ∧ r.json = j := by
  constructor
  · intro h
    obtain ⟨rfl, r, hr, rfl⟩ := exists_report hj h
    exact ⟨rfl, r, ⟨hr, ((validate_json hr).mp h).2⟩, rfl⟩
  · rintro ⟨rfl, r, hr, rfl⟩
    exact (validate_json hr.toWellFormed).mpr ⟨rfl, hr.consistent⟩

end Accepted

/-! ## Parts of a value -/

def Histogram.ofJson (l : Json) : Histogram where
  count := valueOf (member l "count")
  sum := valueOf (member l "sumNs")
  buckets := (member l "buckets").elements.map valueOf

/-- The text of a string. -/
def stringOf : Json → String
  | .string s => s
  | _ => ""

def edgeOf (j : Json) : Option (String × Endpoint) := do
  let edge ← j.find? "edge"
  let v ← j.find? "endpoint"
  let endpoint ← endpointOf v
  return (stringOf edge, endpoint)

/-- The parts of a report that was accepted. -/
def Report.ofJson (j : Json) : Report where
  edge := edgeOf j
  stream := stringOf (member j "stream")
  epoch := stringOf (member j "epoch")
  sequence := valueOf (member j "sequence")
  elapsedNs := valueOf (member j "elapsedNs")
  counters := readCounter (member j "counters")
  latency := (j.find? "latency").map Histogram.ofJson

section Parts

@[simp] theorem member_find {v x : Json} {k : String} (h : v.find? k = some x) : member v k = x := by
  rw [member, h]
  rfl

theorem valueOf_word {n : ℕ} (h : n < 2 ^ 64) : valueOf (word n) = n := by
  rw [valueOf, number_word h]
  rfl

theorem Histogram.ofJson_json {h : Histogram} (hw : h.Words) : ofJson h.json = h := by
  have hcount : valueOf (member h.json "count") = h.count := valueOf_word hw.count
  have hsum : valueOf (member h.json "sumNs") = h.sum := valueOf_word hw.sum
  have hbuckets : (member h.json "buckets").elements.map valueOf = h.buckets := by
    have helements : (member h.json "buckets").elements = h.buckets.map word := rfl
    rw [helements, List.map_map]
    exact (List.map_congr_left fun n hn => valueOf_word (hw.buckets n hn)).trans (List.map_id _)
  rw [ofJson, hcount, hsum, hbuckets]

theorem readCounter_json {r : Report} (hr : r.WellFormed) (k : Counter) :
    readCounter (countersJson r.endpoint r.counters) k = r.counters k := by
  by_cases hk : k ∈ counterOrder r.endpoint
  · rw [readCounter_of_find (find_counters _ _ hk)]
    cases hv : r.counters k with
    | none => rfl
    | some n =>
      rw [counterJson, number_word (hr.words k n hv)]
      rfl
  · -- only a node lacks counters, and its report has none of them
    cases he : r.endpoint with
    | none =>
      rw [he] at hk
      have hedge : k ∈ edgeCounters := by cases k <;> first | decide | exact absurd (by decide) hk
      rw [hr.node he k hedge]
      cases k <;> first | rfl | exact absurd hedge (by decide)
    | some =>
      rw [he] at hk
      cases k <;> simp [counterOrder] at hk

theorem edgeOf_json (r : Report) : edgeOf r.json = r.edge := by
  obtain ⟨-, -, hedge, -, hendpoint, -⟩ := find_json r
  rw [edgeOf, hedge, hendpoint]
  cases h : r.edge with
  | none => rfl
  | some p =>
    obtain ⟨_, endpoint⟩ := p
    cases endpoint <;> rfl

/-- A report is known by its value. -/
theorem Report.ofJson_json {r : Report} (hr : r.WellFormed) : ofJson r.json = r := by
  obtain ⟨-, hcounters, -, helapsed, -, hepoch, hlatency, hsequence, hstream⟩ := find_json r
  have hhistogram : (r.latency.map Histogram.json).map Histogram.ofJson = r.latency := by
    cases h : r.latency with
    | none => rfl
    | some x => exact congrArg some (Histogram.ofJson_json (hr.latency x h))
  rw [ofJson, edgeOf_json, member_find hstream, member_find hepoch, member_find hsequence,
    member_find helapsed, member_find hcounters, hlatency, hhistogram, valueOf_word hr.sequence.2,
    valueOf_word hr.elapsedNs, funext (readCounter_json hr)]
  rfl

end Parts

/-! ## Series -/

/-- A counter that has not decreased; a null one stays null. -/
def Grows : Option ℕ → Option ℕ → Prop
  | none, none => True
  | some m, some n => m ≤ n
  | _, _ => False

/-- Latencies to which others were added. -/
structure Histogram.Grows (p r : Histogram) : Prop where
  sum : p.sum ≤ r.sum
  buckets : List.Forall₂ (· ≤ ·) p.buckets r.buckets

def LatencyGrows : Option Histogram → Option Histogram → Prop
  | none, none => True
  | some p, some r => p.Grows r
  | _, _ => False

attribute [local simp] Grows LatencyGrows

/-- The second report is a later one of the same series and epoch. -/
structure Report.Follows (p r : Report) : Prop where
  sequence : p.sequence < r.sequence
  elapsedNs : p.elapsedNs < r.elapsedNs
  edge : p.edge = r.edge
  stream : p.stream = r.stream
  counters : ∀ k, Application.Grows (p.counters k) (r.counters k)
  latency : LatencyGrows p.latency r.latency

theorem Grows.refl (o : Option ℕ) : Grows o o := by
  cases o with
  | none => trivial
  | some => exact le_rfl

theorem Grows.trans : ∀ {o o' o'' : Option ℕ}, Grows o o' → Grows o' o'' → Grows o o''
  | none, none, none, _, _ => trivial
  | some _, some _, some _, h, h' => Nat.le_trans h h'

theorem Histogram.Grows.refl (h : Histogram) : h.Grows h :=
  ⟨le_rfl, List.forall₂_same.mpr fun _ _ => le_rfl⟩

theorem Histogram.Grows.trans {h h' h'' : Histogram} (hg : h.Grows h') (hg' : h'.Grows h'') :
    h.Grows h'' :=
  ⟨hg.sum.trans hg'.sum, forall₂_trans hg.buckets hg'.buckets⟩

section Follows

variable {p r : Report}

theorem compareCounter_json (hp : p.WellFormed) (hr : r.WellFormed)
    (hends : p.endpoint = r.endpoint) (hk : k ∈ counterOrder r.endpoint) :
    compareCounter p.json r.json k = .ok u ↔ Grows (p.counters k) (r.counters k) := by
  obtain ⟨-, hpc, -⟩ := find_json p
  obtain ⟨-, hrc, -⟩ := find_json r
  have hold : member (member p.json "counters") k.key = counterJson (p.counters k) := by
    rw [member_find hpc, member_find (find_counters _ _ (hends ▸ hk))]
  have hnew : member (member r.json "counters") k.key = counterJson (r.counters k) := by
    rw [member_find hrc, member_find (find_counters _ _ hk)]
  rw [compareCounter, hold, hnew]
  cases hm : p.counters k with
  | none =>
    cases hn : r.counters k with
    | none => simp [counterJson, require, check]
    | some => simp [counterJson, require, check, word]
  | some m =>
    cases hn : r.counters k with
    | none => simp [counterJson, require, check, word]
    | some n =>
      rw [counterJson, counterJson, require_bind (by simp [word]), if_neg (word_ne_null n),
        number_word (hr.words k n hn), ok_bind, number_word (hp.words k m hm), ok_bind,
        require_eq_ok, decide_eq_true_eq]
      rfl

theorem compareBucket_json {x y : Histogram} (hx : x.Words) (hy : y.Words)
    (hpl : p.json.find? "latency" = some x.json) (hrl : r.json.find? "latency" = some y.json)
    {i : ℕ} (hi : i < 8) :
    compareBucket p.json r.json i = .ok u ↔
      x.buckets.get ⟨i, hx.length.symm ▸ hi⟩ ≤ y.buckets.get ⟨i, hy.length.symm ▸ hi⟩ := by
  have hbucket : ∀ {h : Histogram} (hw : h.Words),
      number ((member h.json "buckets").elements.getD i .null) =
        .ok (h.buckets.get ⟨i, hw.length.symm ▸ hi⟩) := by
    intro h hw
    have hlt : i < h.buckets.length := hw.length.symm ▸ hi
    have hget : ((h.buckets.map word).getD i .null) = word h.buckets[i] := by
      rw [List.getD_eq_getElem?_getD, List.getElem?_eq_getElem (by simpa using hlt), Option.getD_some,
        List.getElem_map]
    exact hget.symm ▸ number_word (hw.buckets _ (List.getElem_mem hlt))
  rw [compareBucket, member_find hpl, member_find hrl, hbucket hy, ok_bind, hbucket hx, ok_bind,
    require_eq_ok, decide_eq_true_eq]

theorem compareLatency_json (hp : p.WellFormed) (hr : r.WellFormed) :
    compareLatency p.json r.json = .ok u ↔ LatencyGrows p.latency r.latency := by
  obtain ⟨-, -, -, -, -, -, hpl, -⟩ := find_json p
  obtain ⟨-, -, -, -, -, -, hrl, -⟩ := find_json r
  rw [compareLatency, hpl, hrl]
  cases hx : p.latency with
  | none =>
    cases hy : r.latency with
    | none => simp [require, check]
    | some => simp [require, check]
  | some x =>
    cases hy : r.latency with
    | none => simp [require, check]
    | some y =>
      rw [hx, Option.map_some] at hpl
      rw [hy, Option.map_some] at hrl
      have hxw := hp.latency x hx
      have hyw := hr.latency y hy
      have hsum : number (member (member r.json "latency") "sumNs") = .ok y.sum := by
        rw [member_find hrl]
        exact number_word hyw.sum
      have hsum' : number (member (member p.json "latency") "sumNs") = .ok x.sum := by
        rw [member_find hpl]
        exact number_word hxw.sum
      rw [require_bind (by rfl), if_pos (by rfl), hsum, ok_bind, hsum', ok_bind, bind_eq_ok]
      simp only [require_eq_ok, decide_eq_true_eq]
      have heach : each (compareBucket p.json r.json) (List.range 8) = .ok u ↔
          List.Forall₂ (· ≤ ·) x.buckets y.buckets := by
        rw [each_eq_ok, List.forall₂_iff_get]
        constructor
        · intro h
          refine ⟨hxw.length.trans hyw.length.symm, fun i hi hi' => ?_⟩
          have hlt : i < 8 := hxw.length ▸ hi
          exact (compareBucket_json hxw hyw hpl hrl hlt).mp (h i (List.mem_range.mpr hlt))
        · rintro ⟨-, h⟩ i hi
          have hlt := List.mem_range.mp hi
          exact (compareBucket_json hxw hyw hpl hrl hlt).mpr (h i _ _)
      rw [heach]
      constructor
      · rintro ⟨_, hle, h⟩
        exact ⟨hle, h⟩
      · intro h
        exact ⟨(), h.sum, h.buckets⟩

theorem endpoint_text_injective : Function.Injective Endpoint.text := by
  intro e e' h
  cases e <;> cases e' <;> first | rfl | exact absurd h (by decide)

theorem compareEdge_json (hp : p.WellFormed) (hr : r.WellFormed)
    (hversion : p.json.find? "apiVersion" = r.json.find? "apiVersion") :
    compareEdge p.json r.json = .ok u ↔
      p.edge = r.edge ∧ ∀ k ∈ edgeCounters, Grows (p.counters k) (r.counters k) := by
  obtain ⟨hpv, -, hpe, -, hpn, -⟩ := find_json p
  obtain ⟨hrv, -, hre, -, hrn, -⟩ := find_json r
  rw [compareEdge, hpe, hre, hpn, hrn]
  cases hy : r.edge with
  | none =>
    have hx : p.edge = none := by
      cases hx : p.edge with
      | none => rfl
      | some =>
        rw [hpv, hrv, Report.endpoint, Report.endpoint, hx, hy] at hversion
        exact absurd hversion (by simp [versionOf, edgeVersion, nodeVersion])
    have hnone : ∀ k ∈ edgeCounters, Grows (p.counters k) (r.counters k) := by
      intro k hk
      rw [hp.node (by rw [Report.endpoint, hx]; rfl) k hk,
        hr.node (by rw [Report.endpoint, hy]; rfl) k hk]
      trivial
    simp only [Option.map_none, Option.isSome_none, Bool.false_eq_true, if_false, true_iff]
    exact ⟨hx, hnone⟩
  | some y =>
    rw [Option.map_some, Option.map_some, Option.isSome_some, if_pos rfl, bind_eq_ok]
    simp only [require_eq_ok, Bool.and_eq_true, decide_eq_true_eq]
    have hedge : (p.edge.map (fun x => Json.string x.1) = some (.string y.1) ∧
        p.edge.map (fun x => Json.string x.2.text) = some (.string y.2.text)) ↔
        p.edge = some y := by
      cases hx : p.edge with
      | none => simp
      | some =>
        simp only [Option.map_some, Option.some.injEq, Json.string.injEq]
        rw [endpoint_text_injective.eq_iff, Prod.ext_iff]
    rw [exists_const, hedge]
    refine and_congr_right fun hx => ?_
    have hends : p.endpoint = r.endpoint := by rw [Report.endpoint, hx, Report.endpoint, hy]
    have hsome : r.endpoint.isSome = true := by rw [Report.endpoint, hy]; rfl
    rw [each_eq_ok]
    exact forall₂_congr fun k hk =>
      compareCounter_json hp hr hends (mem_counterOrder.mpr (.inr ⟨hsome, hk⟩))

/-- Reports of one epoch are compared part by part. -/
theorem compareReports_json (hp : p.WellFormed) (hr : r.WellFormed) :
    compareReports p.json r.json = .ok u ↔ p.Follows r := by
  obtain ⟨hpv, -, -, hpt, -, -, -, hps, hpm⟩ := find_json p
  obtain ⟨hrv, -, -, hrt, -, -, -, hrs, hrm⟩ := find_json r
  rw [compareReports, member_find hps, member_find hrs, member_find hpt, member_find hrt,
    number_word hr.sequence.2, ok_bind, number_word hp.sequence.2, ok_bind,
    number_word hr.elapsedNs, ok_bind, number_word hp.elapsedNs, ok_bind]
  simp only [bind_eq_ok, require_eq_ok, Bool.and_eq_true, decide_eq_true_eq,
    compareLatency_json hp hr]
  rw [hpm, hrm, Option.some.injEq, Json.string.injEq]
  constructor
  · rintro ⟨_, hsequence, _, helapsed, _, ⟨hversion, hstream⟩, _, hedge, _, hcounters, hlatency⟩
    obtain ⟨hedge, hown⟩ := (compareEdge_json hp hr hversion).mp hedge
    have hends : p.endpoint = r.endpoint := by rw [Report.endpoint, hedge, Report.endpoint]
    refine ⟨hsequence, helapsed, hedge, hstream, fun k => ?_, hlatency⟩
    by_cases hk : k ∈ counters
    · exact (compareCounter_json hp hr hends (mem_counterOrder.mpr (.inl hk))).mp
        (each_eq_ok.mp hcounters k hk)
    · exact hown k (by cases k <;> simp_all [counters, edgeCounters])
  · intro h
    have hends : p.endpoint = r.endpoint := by rw [Report.endpoint, h.edge, Report.endpoint]
    have hversion : p.json.find? "apiVersion" = r.json.find? "apiVersion" := by
      rw [hpv, hrv, hends]
    exact ⟨(), h.sequence, (), h.elapsedNs, (), ⟨hversion, h.stream⟩, (),
      (compareEdge_json hp hr hversion).mpr ⟨h.edge, fun k _ => h.counters k⟩, (),
      each_eq_ok.mpr fun k hk =>
        (compareCounter_json hp hr hends (mem_counterOrder.mpr (.inl hk))).mpr (h.counters k),
      h.latency⟩

theorem deriveRates_json (hp : p.WellFormed) (hr : r.WellFormed) {old : Envelope}
    (hold : old.report = p.json) (collector : String) :
    (∃ x, deriveRates (some old) r.json collector = .ok x) ↔ p.epoch ≠ r.epoch ∨ p.Follows r := by
  obtain ⟨-, -, -, -, -, hpe, -⟩ := find_json p
  obtain ⟨-, -, -, -, -, hre, -⟩ := find_json r
  rw [deriveRates, hold, member_find hpe, member_find hre]
  simp only [ne_eq, Json.string.injEq]
  by_cases hepoch : p.epoch = r.epoch
  · simp only [hepoch, not_true_eq_false, if_false, false_or, bind_eq_ok]
    constructor
    · rintro ⟨x, u, h, -⟩
      exact (compareReports_json hp hr).mp h
    · intro h
      have hcompare := (compareReports_json (u := ()) hp hr).mpr h
      split
      · exact ⟨_, (), hcompare, rfl⟩
      · split
        · exact ⟨_, (), hcompare, rfl⟩
        · exact ⟨_, (), hcompare, rfl⟩
  · simp only [hepoch, not_false_eq_true, if_true, true_or, iff_true]
    exact ⟨_, rfl⟩

/-- What is derived from a report has the report itself. -/
theorem derive_eq_ok {old : Option Envelope} {j : Json} {collector : String} {e : Envelope}
    (h : derive old j collector = .ok e) :
    validate j = .ok e.report ∧ e.collectorEpoch = collector ∧
      e.latency = (e.report.find? "latency").map deriveLatency := by
  obtain ⟨_, hr, h⟩ := bind_eq_ok.mp h
  obtain ⟨_, -, hdone⟩ := bind_eq_ok.mp h
  cases hdone
  exact ⟨hr, rfl, rfl⟩

/-- A report is accepted after another one if it is valid, and of another epoch or a later one. -/
theorem derive_isOk (hp : p.WellFormed) (hr : r.WellFormed) {old : Envelope}
    (hold : old.report = p.json) (collector : String) :
    (∃ e, derive (some old) r.json collector = .ok e) ↔
      r.Valid ∧ (p.epoch ≠ r.epoch ∨ p.Follows r) := by
  rw [← deriveRates_json hp hr hold collector]
  constructor
  · rintro ⟨e, h⟩
    obtain ⟨_, hj, h⟩ := bind_eq_ok.mp h
    obtain ⟨rfl, hconsistent⟩ := (validate_json hr).mp hj
    obtain ⟨x, hx, -⟩ := bind_eq_ok.mp h
    exact ⟨⟨hr, hconsistent⟩, x, hx⟩
  · rintro ⟨hvalid, x, hx⟩
    exact ⟨_, bind_eq_ok.mpr ⟨_, (validate_json hr).mpr ⟨rfl, hvalid.consistent⟩,
      bind_eq_ok.mpr ⟨x, hx, rfl⟩⟩⟩

end Follows

end Graphlab.Application
