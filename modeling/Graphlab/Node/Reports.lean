import Graphlab.Application.Latency
import Graphlab.Node.Loop

/-!
# Reports of a node

What a node reports of its datagrams and of each of its two streams is accepted by `validate`, and
by `derive` after every report of the same series that came before.

The counters of a series are kept in different branches of the loop.  Two facts carry the proof: a
round only adds to the counters (`Kept.before`), and the buckets are those of the latencies that
were counted (`Kept.sound`).

## Main results

* `round_kept` — what a round keeps.
* `reports_accepted` — every report is accepted.
-/

namespace Graphlab.Node

open Lib Application

/-! ## Series -/

/-- The counters of a series. -/
structure Tally where
  values : Counter → Option ℕ
  histogram : Histogram

def Counters.tally (k : Counters) : Tally where
  values
    | .sentMessages => some k.sent
    | .receivedMessages => some k.packets
    | .sentPayloadBytes => some k.sentBytes
    | .receivedPayloadBytes => some k.receivedBytes
    | .errors => some k.errors
    | .rejectedMessages => some k.rejected
    | .backpressureEvents => some k.backpressure
    | .reconnects | .backpressureNs => none
  histogram := ⟨k.sent, k.latencySum, k.latencyBuckets⟩

def Stream.tally (s : Stream) : Tally where
  values
    | .receivedMessages => some s.received
    | .receivedPayloadBytes => some s.bytes
    | .errors => some s.errors
    | .rejectedMessages => some s.rejected
    | .reconnects => some (s.connections - 1)
    | .sentMessages | .sentPayloadBytes | .backpressureEvents | .backpressureNs => none
  histogram := ⟨s.count, s.sum, s.buckets⟩

/-- The counters of the datagrams, or of a stream. -/
def State.tally (n : State) : Option Tag → Tally
  | none => n.counters.tally
  | some tag => (n.streams tag).tally

/-- The report of a series by its parts. -/
def State.report (n : State) (epoch : String) (elapsed : ℕ) (series : Option Tag) : Report where
  edge := series.map fun tag => (tag.text, .target)
  stream := (series.map Tag.text).getD "udp-echo"
  epoch := epoch
  sequence := n.counters.sequence
  elapsedNs := elapsed
  counters := (n.tally series).values
  latency := some (n.tally series).histogram

theorem nodeReport_eq (n : State) (epoch : String) (elapsed : ℕ) :
    nodeReport epoch n.counters elapsed = (n.report epoch elapsed none).json := rfl

theorem edgeReport_eq (n : State) (epoch : String) (elapsed : ℕ) (tag : Tag) :
    edgeReport epoch tag (n.streams tag) n.counters.sequence (word elapsed) =
      (n.report epoch elapsed (some tag)).json := rfl

/-! ## What is kept -/

/-- The second tally is the first one with more counted. -/
structure Tally.Before (t t' : Tally) : Prop where
  values : ∀ k, Grows (t.values k) (t'.values k)
  histogram : t.histogram.Grows t'.histogram

/-- The buckets are those of latencies, and these are of messages that were counted. -/
structure Tally.Sound (t : Tally) (e : Option Endpoint) : Prop where
  latencies : ∃ xs, t.histogram.Realises xs
  count : t.histogram.count ≤ (t.values (timed e)).getD 0

def endpointOfSeries (series : Option Tag) : Option Endpoint := series.map fun _ => .target

/-- What a part of the loop keeps of the counters. -/
structure Kept (n n' : State) : Prop where
  sequence : n.counters.sequence ≤ n'.counters.sequence
  before : ∀ series, (n.tally series).Before (n'.tally series)
  sound : ∀ series, (n.tally series).Sound (endpointOfSeries series) →
    (n'.tally series).Sound (endpointOfSeries series)

theorem Tally.Before.refl (t : Tally) : t.Before t := ⟨fun _ => .refl _, .refl _⟩

theorem Tally.Before.trans {t t' t'' : Tally} (h : t.Before t') (h' : t'.Before t'') :
    t.Before t'' :=
  ⟨fun k => (h.values k).trans (h'.values k), h.histogram.trans h'.histogram⟩

namespace Kept

variable {n n' n'' : State}

/-- The gate has no part in the counters. -/
theorem of_eq (hcounters : n'.counters = n.counters) (hstreams : n'.streams = n.streams) :
    Kept n n' := by
  have htally : ∀ series, n'.tally series = n.tally series := by
    intro series
    cases series with
    | none => rw [State.tally, State.tally, hcounters]
    | some => rw [State.tally, State.tally, hstreams]
  refine ⟨hcounters ▸ le_rfl, fun series => ?_, fun series h => ?_⟩
  · rw [htally]
    exact .refl _
  · rw [htally]
    exact h

theorem refl (n : State) : Kept n n := of_eq rfl rfl

theorem trans (h : Kept n n') (h' : Kept n' n'') : Kept n n'' :=
  ⟨h.sequence.trans h'.sequence, fun series => (h.before series).trans (h'.before series),
    fun series hs => h'.sound series (h.sound series hs)⟩

end Kept

/-! ### Latencies -/

/-- One more latency adds to its bucket. -/
theorem grows_count (h : Histogram) (count : ℕ) (ns : ℕ) :
    h.Grows ⟨count, h.sum + ns, Node.count h.buckets ns⟩ := by
  refine ⟨Nat.le_add_right .., List.forall₂_iff_get.mpr ⟨?_, fun i hi hi' => ?_⟩⟩
  · simp [Node.count]
  · simp only [Node.count, List.get_eq_getElem, List.getElem_modify]
    split <;> omega

theorem realises_count {h : Histogram} {xs : List ℕ} (hxs : h.Realises xs) (ns : ℕ) :
    (⟨h.count + 1, h.sum + ns, Node.count h.buckets ns⟩ : Histogram).Realises (ns :: xs) where
  count := by rw [List.length_cons, hxs.count]
  buckets := by rw [tally_cons_right, hxs.buckets, Node.count]
  sum := by rw [List.sum_cons, hxs.sum, Nat.add_comm]

/-! ### Datagrams and records -/

theorem datagram_before (k : Counters) (d : Datagram) : k.tally.Before (k.datagram d).tally := by
  have hle : ∀ m n : ℕ, m ≤ m + n := Nat.le_add_right
  unfold Counters.datagram
  dsimp only
  split
  · refine ⟨fun key => ?_, .refl _⟩
    cases key <;> first | exact hle _ _ | exact le_rfl | trivial
  split
  · refine ⟨fun key => ?_, grows_count _ _ _⟩
    cases key <;> first | exact hle _ _ | exact le_rfl | trivial
  · refine ⟨fun key => ?_, .refl _⟩
    cases key <;> first | exact hle _ _ | exact le_rfl | trivial | skip
    dsimp only [Counters.tally]
    split
    · exact hle _ _
    · exact le_rfl

theorem datagram_sound (k : Counters) (d : Datagram) (hk : k.tally.Sound none) :
    (k.datagram d).tally.Sound none := by
  obtain ⟨⟨xs, hxs⟩, hcount⟩ := hk
  unfold Counters.datagram
  dsimp only
  split
  · exact ⟨⟨xs, hxs⟩, hcount⟩
  split
  · next ns _ => exact ⟨⟨ns :: xs, realises_count hxs ns⟩, le_rfl⟩
  · exact ⟨⟨xs, hxs⟩, hcount⟩

theorem record_before (s : Stream) (r : Record) : s.tally.Before (s.record r).tally := by
  have hle : ∀ m n : ℕ, m ≤ m + n := Nat.le_add_right
  have hconnections : s.connections - 1 ≤ s.connections + 1 - 1 := by omega
  unfold Stream.record
  dsimp only
  split
  · split
    · refine ⟨fun key => ?_, grows_count _ _ _⟩
      cases key <;> first | exact hle _ _ | exact le_rfl | exact hconnections | trivial
    · refine ⟨fun key => ?_, .refl _⟩
      cases key <;> first | exact hle _ _ | exact le_rfl | exact hconnections | trivial
  · refine ⟨fun key => ?_, .refl _⟩
    cases key <;> first | exact hle _ _ | exact le_rfl | exact hconnections | trivial

theorem record_sound (s : Stream) (r : Record) (hs : s.tally.Sound (some .target)) :
    (s.record r).tally.Sound (some .target) := by
  obtain ⟨⟨xs, hxs⟩, hcount⟩ := hs
  have hcount : s.count ≤ s.received := hcount
  unfold Stream.record
  dsimp only
  split
  · split
    · next ns _ => exact ⟨⟨ns :: xs, realises_count hxs ns⟩, Nat.succ_le_succ hcount⟩
    · exact ⟨⟨xs, hxs⟩, hcount.trans (Nat.le_succ _)⟩
  · exact ⟨⟨xs, hxs⟩, hcount.trans (Nat.le_succ _)⟩

/-! ### Rounds -/

section Rounds

variable (n : State)

theorem expire_kept (now : ℕ) : Kept n (n.expire now) := .of_eq rfl rfl

theorem record_kept (tag : Tag) (r : Record) :
    Kept n { n with streams := Function.update n.streams tag ((n.streams tag).record r) } := by
  refine ⟨le_rfl, fun series => ?_, fun series hs => ?_⟩
  · cases series with
    | none => exact .refl _
    | some other =>
      by_cases hother : other = tag
      · subst hother
        simp only [State.tally, Function.update_self]
        exact record_before _ r
      · simp only [State.tally, Function.update_of_ne hother]
        exact .refl _
  · cases series with
    | none => exact hs
    | some other =>
      by_cases hother : other = tag
      · subst hother
        simp only [State.tally, Function.update_self]
        exact record_sound _ r hs
      · simp only [State.tally, Function.update_of_ne hother]
        exact hs

theorem stream_kept (r : Option Record) : Kept n (n.stream r) := by
  unfold State.stream
  split
  · split
    · split
      · exact record_kept n _ _
      · exact .refl n
    · exact .refl n
  · exact .refl n

theorem counted_kept (d : Datagram) : Kept n { n with counters := n.counters.datagram d } := by
  refine ⟨?_, fun series => ?_, fun series hs => ?_⟩
  · unfold Counters.datagram
    dsimp only
    split
    · exact le_rfl
    · split <;> exact le_rfl
  · cases series with
    | none => exact datagram_before _ d
    | some => exact .refl _
  · cases series with
    | none => exact datagram_sound _ d hs
    | some => exact hs

theorem datagram_kept (c : Config) (d : Option Datagram) : Kept n (n.datagram c d) := by
  cases d with
  | none => exact .refl n
  | some d =>
    simp only [State.datagram]
    generalize (if c.applicationTelemetry = true then d else { d with size := min d.size 1500 }) = d
    split
    · exact counted_kept n d
    · exact .refl n

theorem expires_kept (clocks : List ℕ) : Kept n (clocks.foldl State.expire n) := by
  induction clocks generalizing n with
  | nil => exact .refl n
  | cons now clocks ih => exact (expire_kept n now).trans (ih _)

theorem generate_kept {c : Config} {g : Generation} {n' : State} (h : n.generate c g = .ok n') :
    Kept n n' := by
  unfold State.generate at h
  split at h
  · split at h
    · cases h
    · cases h
      exact expires_kept n g.clocks
  · cases h
    exact .refl n

theorem serve_kept {c : Config} {e : Ready} {n' : State} (h : serve c n e = .ok n') :
    Kept n n' :=
  (expire_kept n _).trans <| (stream_kept _ _).trans <| (expire_kept _ _).trans <|
    (datagram_kept _ _ _).trans <| (expire_kept _ _).trans (generate_kept _ h)

theorem command_kept (c : Config) (r : Request) : Kept n (n.command c r) := by
  have htally : ∀ series, (n.command c r).tally series = n.tally series := by
    intro series
    cases series with
    | none =>
      simp only [State.command, State.tally]
      split <;> rfl
    | some => rfl
  refine ⟨?_, fun series => ?_, fun series hs => ?_⟩
  · simp only [State.command]
    split
    · exact Nat.le_succ _
    · exact le_rfl
  · rw [htally]
    exact .refl _
  · rw [htally]
    exact hs

/-- A round only adds to the counters. -/
theorem round_kept {c : Config} {epoch : String} {e : Round} {n' : State}
    {response : Option Response} (h : round c epoch n e = .ok (n', response)) : Kept n n' := by
  unfold round at h
  dsimp only at h
  split at h
  · cases h
    exact expire_kept n _
  · obtain ⟨_, hm, h⟩ := bind_eq_ok.mp h
    have hserve := (expire_kept n _).trans (serve_kept _ hm)
    split at h
    · cases h
      exact hserve
    · cases h
      exact hserve.trans (command_kept _ c _)

theorem run_kept (c : Config) (epoch : String) (es : List Round) :
    Kept n (run c epoch n es).1 := by
  induction es generalizing n with
  | nil => exact .refl n
  | cons e es ih =>
    rw [run]
    split
    · exact .refl n
    · next n' response h => exact (round_kept n h).trans (ih n')

end Rounds

/-! ## The reports are accepted -/

/-- The report of a series in a response. -/
def Response.report (r : Response) : Option Tag → Option Json
  | none => r.applicationTelemetry
  | some .alpha => r.applicationEdgeTelemetry[0]?
  | some .beta => r.applicationEdgeTelemetry[1]?

/-- The time of the report that a round asks for. -/
def Round.time (e : Round) : Option ℕ := do
  let ready ← e.ready
  let r ← ready.request
  if r.command = "status" then some r.environment.elapsed else none

def times (es : List Round) : List ℕ := es.filterMap Round.time

/-- The 64-bit variables of `run_node` that count. -/
def State.numbers (n : State) : List ℕ :=
  [n.counters.packets, n.counters.sent, n.counters.receivedBytes, n.counters.sentBytes,
    n.counters.errors, n.counters.rejected, n.counters.backpressure, n.counters.sequence,
    n.counters.latencySum] ++ n.counters.latencyBuckets ++
  [Tag.alpha, .beta].flatMap fun tag =>
    [(n.streams tag).received, (n.streams tag).bytes, (n.streams tag).errors,
      (n.streams tag).rejected, (n.streams tag).connections, (n.streams tag).count,
      (n.streams tag).sum] ++ (n.streams tag).buckets

/-- No counter has overflowed. -/
def State.Words (n : State) : Prop := ∀ k ∈ n.numbers, k < 2 ^ 64

/-- The reports of a series in a run. -/
def reported (c : Config) (epoch : String) (es : List Round) (series : Option Tag) : List Json :=
  (run c epoch {} es).2.filterMap (·.report series)

section Accepted

variable {n n' : State} {c : Config} {epoch : String}

/-! ### Numbers -/

theorem drawnEpoch_text (random : Fin 32 → ℕ) : epochText (drawnEpoch random) = true := by
  have hhex : ∀ k < 16, (fun c : Char => ('a' ≤ c && c ≤ 'f') || digit c)
      ("0123456789abcdef".toList.getD k '0') = true := by
    decide
  simp only [epochText, drawnEpoch, String.toList_ofList, List.length_map, List.length_finRange,
    beq_self_eq_true, Bool.true_and, List.all_eq_true, List.mem_map]
  rintro _ ⟨i, -, rfl⟩
  exact hhex _ (Nat.mod_lt _ (by decide))

/-- What is reported are words. -/
structure Tally.Words (t : Tally) : Prop where
  values : ∀ k v, t.values k = some v → v < 2 ^ 64
  sum : t.histogram.sum < 2 ^ 64
  buckets : ∀ v ∈ t.histogram.buckets, v < 2 ^ 64

theorem State.Words.tally (hn : n.Words) (series : Option Tag) : (n.tally series).Words := by
  cases series with
  | none =>
    refine ⟨fun k v hv => ?_, hn _ (by simp [numbers, State.tally, Counters.tally]),
      fun v hv => hn v ?_⟩
    · cases k <;> cases hv <;> exact hn _ (by simp [numbers])
    · have hv : v ∈ n.counters.latencyBuckets := hv
      simp [numbers, hv]
  | some tag =>
    have hmem : ∀ v ∈ [(n.streams tag).received, (n.streams tag).bytes, (n.streams tag).errors,
        (n.streams tag).rejected, (n.streams tag).connections, (n.streams tag).count,
        (n.streams tag).sum] ++ (n.streams tag).buckets, v < 2 ^ 64 := by
      intro v hv
      refine hn v (List.mem_append_right _ (List.mem_flatMap.mpr ⟨tag, ?_, hv⟩))
      cases tag <;> decide
    refine ⟨fun k v hv => ?_, hmem _ (by simp [State.tally, Stream.tally]),
      fun v hv => hmem v (List.mem_append_right _ hv)⟩
    have hconnections := hmem (n.streams tag).connections (by simp)
    cases k <;> cases hv <;> first | omega | exact hmem _ (by simp)

theorem Tally.Before.words {t t' : Tally} (h : t.Before t') (ht : t'.Words) : t.Words := by
  refine ⟨fun k v hv => ?_, h.histogram.sum.trans_lt ht.sum, fun v hv => ?_⟩
  · have hgrows := h.values k
    rw [hv] at hgrows
    cases hv' : t'.values k with
    | none =>
      rw [hv'] at hgrows
      cases hgrows
    | some v' =>
      rw [hv'] at hgrows
      exact Nat.lt_of_le_of_lt hgrows (ht.values k v' hv')
  · obtain ⟨v', hv', hle⟩ := exists_of_mem_left h.histogram.buckets hv
    exact hle.trans_lt (ht.buckets v' hv')

theorem Tally.Words.histogram {t : Tally} {e : Option Endpoint} (ht : t.Words) (hs : t.Sound e) :
    t.histogram.Words := by
  obtain ⟨_, hxs⟩ := hs.latencies
  refine ⟨?_, ht.sum, by rw [← hxs.buckets, length_tally]; rfl, ht.buckets⟩
  have hcount := hs.count
  cases hv : t.values (timed e) with
  | none =>
    rw [hv, Option.getD_none] at hcount
    omega
  | some v =>
    rw [hv, Option.getD_some] at hcount
    exact hcount.trans_lt (ht.values _ v hv)

/-! ### Single reports -/

theorem valid_report {elapsed : ℕ} (hepoch : epochText epoch = true) (helapsed : elapsed < 2 ^ 64)
    (hsequence : 0 < n.counters.sequence ∧ n.counters.sequence < 2 ^ 64) {series : Option Tag}
    (hwords : (n.tally series).Words) (hsound : (n.tally series).Sound (endpointOfSeries series)) :
    (n.report epoch elapsed series).Valid := by
  have hends : (n.report epoch elapsed series).endpoint = endpointOfSeries series := by
    cases series <;> rfl
  have hhistogram := hwords.histogram hsound
  have hconsistent := (consistent_iff hhistogram (n.report epoch elapsed series).messages).mpr
    ⟨by rw [Report.messages, hends]; exact hsound.count, hsound.latencies⟩
  refine ⟨⟨?_, ?_, hepoch, hsequence, helapsed, hwords.values, ?_, ?_, ?_, ?_⟩, ?_⟩
  · cases series with
    | none =>
      intro p hp
      cases hp
    | some tag =>
      intro p hp
      cases Option.mem_def.mp hp
      cases tag <;> decide
  · cases series with
    | none => exact (by decide : streamText "udp-echo" = true)
    | some tag =>
      cases tag with
      | alpha => exact (by decide : streamText "alpha" = true)
      | beta => exact (by decide : streamText "beta" = true)
  · intro k hk hnone
    rw [hends]
    cases series with
    | none => cases k <;> first | exact absurd hk (by decide) | cases hnone
    | some =>
      cases k <;>
        first | exact absurd hk (by decide) | exact ⟨.target, rfl, by decide⟩ | cases hnone
  · rw [hends]
    intro e he k hk
    cases series with
    | none => cases Option.mem_def.mp he
    | some =>
      cases Option.mem_def.mp he
      have hk : k ∈ Endpoint.target.foreign := hk
      cases k <;> first | rfl | exact absurd hk (by decide)
  · rw [hends]
    intro he k hk
    cases series with
    | none => cases k <;> first | rfl | exact absurd hk (by decide)
    | some => cases he
  · intro h hh
    cases Option.mem_def.mp hh
    exact hhistogram
  · intro h hh
    cases Option.mem_def.mp hh
    exact hconsistent

theorem follows_report (hkept : Kept n n') (hsequence : n.counters.sequence < n'.counters.sequence)
    {t t' : ℕ} (htime : t < t') (epoch : String) (series : Option Tag) :
    (n.report epoch t series).Follows (n'.report epoch t' series) where
  sequence := hsequence
  elapsedNs := htime
  edge := rfl
  stream := rfl
  counters := (hkept.before series).values
  latency := (hkept.before series).histogram

/-! ### Runs -/

/-- The state and the time of a report. -/
structure Shot where
  state : State
  time : ℕ

def Shot.json (s : Shot) (epoch : String) (series : Option Tag) : Json :=
  (s.state.report epoch s.time series).json

theorem command_report (hc : c.applicationTelemetry = true ∧ c.edgeTelemetry = true) (r : Request)
    (answer : Answer) (series : Option Tag) :
    (n.response c epoch r answer).report series =
      if r.command = "status" then some (Shot.json ⟨n, r.environment.elapsed⟩ epoch series)
      else none := by
  have hreports : State.reports c r.command = (r.command == "status") := by
    rw [State.reports, hc.1, Bool.true_and]
  by_cases h : r.command = "status"
  · have hstatus : (r.command == "status") = true := by simpa using h
    rw [if_pos h]
    cases series with
    | none => simp [State.response, Response.report, hreports, hstatus, Shot.json, nodeReport_eq]
    | some tag =>
      cases tag <;>
        simp [State.response, Response.report, hreports, hstatus, Shot.json, hc.2, edgeReport_eq]
  · have hstatus : (r.command == "status") = false := by simpa using h
    rw [if_neg h]
    cases series with
    | none => simp [State.response, Response.report, hreports, hstatus]
    | some tag => cases tag <;> simp [State.response, Response.report, hstatus]

/-- What a round reports is what is counted after it. -/
theorem round_report (hc : c.applicationTelemetry = true ∧ c.edgeTelemetry = true) {e : Round}
    {response : Option Response} (h : round c epoch n e = .ok (n', response)) :
    (∀ series, response.toList.filterMap (·.report series) = []) ∨
    ∃ t, e.time = some t ∧ n.counters.sequence < n'.counters.sequence ∧
      ∀ series, response.toList.filterMap (·.report series) = [Shot.json ⟨n', t⟩ epoch series] := by
  unfold round at h
  dsimp only at h
  split at h
  · cases h
    exact .inl fun _ => rfl
  · next ready hready =>
      obtain ⟨_, hm, h⟩ := bind_eq_ok.mp h
      have hserve := (expire_kept n _).trans (serve_kept _ hm)
      split at h
      · cases h
        exact .inl fun _ => rfl
      · next r hr =>
          cases h
          by_cases hstatus : r.command = "status"
          · refine .inr ⟨r.environment.elapsed, ?_, ?_, fun series => ?_⟩
            · simp [Round.time, hready, hr, hstatus]
            · have hreports : State.reports c r.command = true := by
                rw [State.reports, hc.1, hstatus]
                rfl
              simp only [State.command, hreports, if_true]
              exact Nat.lt_succ_of_le hserve.sequence
            · rw [Option.toList_some, List.filterMap_cons, command_report hc, if_pos hstatus]
              rfl
          · refine .inl fun series => ?_
            rw [Option.toList_some, List.filterMap_cons, command_report hc, if_neg hstatus]
            rfl

/-- The reports of a run are those of states that come one after the other. -/
theorem run_shots (epoch : String) (hc : c.applicationTelemetry = true ∧ c.edgeTelemetry = true) (n : State)
    (es : List Round) :
    ∃ shots : List Shot,
      (∀ series, (run c epoch n es).2.filterMap (·.report series) =
        shots.map (·.json epoch series)) ∧
      (shots.map Shot.time).Sublist (times es) ∧
      (∀ s ∈ shots, Kept n s.state ∧ n.counters.sequence < s.state.counters.sequence ∧
        Kept s.state (run c epoch n es).1) ∧
      shots.Pairwise fun s s' =>
        Kept s.state s'.state ∧ s.state.counters.sequence < s'.state.counters.sequence := by
  induction es generalizing n with
  | nil => exact ⟨[], fun _ => rfl, .slnil, by simp, .nil⟩
  | cons e es ih =>
    rw [run]
    cases h : round c epoch n e with
    | error => exact ⟨[], fun _ => rfl, List.nil_sublist _, by simp, .nil⟩
    | ok next =>
      obtain ⟨n', _⟩ := next
      have hkept := round_kept n h
      obtain ⟨shots, hjson, htimes, hshots, hpairs⟩ := ih n'
      have hlater : ∀ s ∈ shots, Kept n s.state ∧
          n.counters.sequence < s.state.counters.sequence ∧
          Kept s.state (run c epoch n' es).1 := fun s hs =>
        ⟨hkept.trans (hshots s hs).1, hkept.sequence.trans_lt (hshots s hs).2.1,
          (hshots s hs).2.2⟩
      rcases round_report hc h with hnone | ⟨t, ht, hsequence, hone⟩
      · refine ⟨shots, fun series => ?_, ?_, hlater, hpairs⟩
        · rw [List.filterMap_append, hnone, List.nil_append, hjson]
        · rw [times, List.filterMap_cons]
          split
          · exact htimes
          · exact htimes.cons _
      · refine ⟨⟨n', t⟩ :: shots, fun series => ?_, ?_, ?_, ?_⟩
        · rw [List.filterMap_append, hone, hjson]
          rfl
        · rw [times, List.filterMap_cons, ht]
          exact htimes.cons_cons _
        · exact List.forall_mem_cons.mpr ⟨⟨hkept, hsequence, run_kept n' c epoch es⟩, hlater⟩
        · refine List.pairwise_cons.mpr ⟨fun s hs => ?_, hpairs⟩
          exact ⟨(hshots s hs).1, (hshots s hs).2.1⟩

theorem sound_initial (series : Option Tag) :
    (State.tally {} series).Sound (endpointOfSeries series) := by
  have hbuckets : tally bounds [] = List.replicate 8 0 := tally_nil_right
  cases series with
  | none => exact ⟨⟨[], rfl, hbuckets, rfl⟩, le_rfl⟩
  | some => exact ⟨⟨[], rfl, hbuckets, rfl⟩, le_rfl⟩

/-- **Reports of a node are accepted.**  In every run of a node with both kinds of telemetry whose
counters do not overflow and whose reports have increasing times, each report is valid, and each
is accepted after every earlier one of its series. -/
theorem reports_accepted (c : Config) (random : Fin 32 → ℕ) (es : List Round)
    (hc : c.applicationTelemetry = true ∧ c.edgeTelemetry = true)
    (htimes : (times es).Pairwise (· < ·)) (hclock : ∀ t ∈ times es, t < 2 ^ 64)
    (hwords : (run c (drawnEpoch random) {} es).1.Words) (series : Option Tag) :
    (∀ j ∈ reported c (drawnEpoch random) es series, validate j = .ok j) ∧
    (reported c (drawnEpoch random) es series).Pairwise fun j j' =>
      ∀ old collector, old.report = j → ∃ e, derive (some old) j' collector = .ok e := by
  obtain ⟨shots, hjson, htime, hshots, hpairs⟩ := run_shots (drawnEpoch random) hc {} es
  have hvalid : ∀ s ∈ shots, (s.state.report (drawnEpoch random) s.time series).Valid := by
    intro s hs
    obtain ⟨hkept, hsequence, hend⟩ := hshots s hs
    refine valid_report (drawnEpoch_text random)
      (hclock _ (htime.subset (List.mem_map_of_mem hs))) ⟨hsequence, ?_⟩
      ((hend.before series).words (hwords.tally series))
      (hkept.sound series (sound_initial series))
    exact hend.sequence.trans_lt (hwords _ (by simp [State.numbers]))
  rw [reported, hjson]
  constructor
  · intro j hj
    obtain ⟨s, hs, rfl⟩ := List.mem_map.mp hj
    exact (validate_json (hvalid s hs).toWellFormed).mpr ⟨rfl, (hvalid s hs).consistent⟩
  · rw [List.pairwise_map]
    have hordered := List.pairwise_map.mp (htimes.sublist htime)
    refine (hpairs.and hordered).imp_of_mem fun {s s'} hs hs' h old collector hold => ?_
    obtain ⟨⟨hkept, hsequence⟩, hlt⟩ := h
    exact (derive_isOk (hvalid s hs).toWellFormed (hvalid s' hs').toWellFormed hold collector).mpr
      ⟨hvalid s' hs', .inr (follows_report hkept hsequence hlt _ series)⟩

/-- A node that is released, reports, echoes a datagram and a record, and reports again. -/
def Sample.rounds : List Round :=
  [⟨1, some { polled := 2, request := some ⟨"release", { now := 3 }⟩ }⟩,
    ⟨4, some { polled := 5, request := some ⟨"status", { now := 6, elapsed := 6 }⟩ }⟩,
    ⟨7, some { polled := 8, record := some ⟨fun _ => 'A', some 60000⟩
               datagram := some ⟨100, some 20000000, false⟩
               request := some ⟨"status", { now := 9, elapsed := 20000009 }⟩ }⟩]

theorem reports_accepted_sample :
    ∃ j j', reported ⟨"app", true, true, none, false⟩ (drawnEpoch fun i => i) Sample.rounds none =
        [j, j'] ∧ j ≠ j' ∧ validate j = .ok j ∧
      ∃ e, derive (some { report := j, collectorEpoch := "collector" }) j' "collector" = .ok e := by
  obtain ⟨hvalid, hpairs⟩ := reports_accepted ⟨"app", true, true, none, false⟩ (fun i => i)
    Sample.rounds ⟨rfl, rfl⟩ (by decide) (by decide)
    (by unfold State.Words; decide) none
  have hreported : reported ⟨"app", true, true, none, false⟩ (drawnEpoch fun i => i) Sample.rounds
      none = [_, _] := rfl
  rw [hreported] at hvalid hpairs
  refine ⟨_, _, hreported, by decide, hvalid _ (List.mem_cons_self ..), ?_⟩
  exact (List.pairwise_cons.mp hpairs).1 _ (List.mem_singleton_self _) _ _ rfl

end Accepted

end Graphlab.Node
