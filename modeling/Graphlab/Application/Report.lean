import Graphlab.Lib.Collect
import Graphlab.Lib.Document
import Graphlab.Lib.Histogram
import Graphlab.Lib.Quoted
import Mathlib.Data.Rat.Defs

/-!
# Reports of applications

A workload reports cumulative counters and a histogram of its service times, for a node or for
one endpoint of an application edge.  `validate` accepts well formed reports, and `derive`
compares a report with the one before it.

Every number is the decimal text of a 64-bit word.  The bounds of a sum of latencies are exact
here; the source takes them as `long double`.  Rates and means are exact, too.

## Main definitions

* `validate`, `derive` — as the source has them, on JSON values.
* `Report`, `Report.Valid`, `Report.json` — reports by their parts.
-/

namespace Graphlab.Application

open Lib

/-! ## Fields -/

/-- `require`. -/
def require (condition : Bool) : Except String Unit := check "invalid_application_telemetry" condition

/-- `fields`. -/
def fields (v : Json) (allowed : List String) : Except String Unit :=
  match v with
  | .object fs => require (fs.all fun f => allowed.contains f.1)
  | _ => require false

/-- `std::from_chars` into a 64-bit word, all characters read. -/
def fromChars (cs : List Char) : Option ℕ :=
  if cs ≠ [] ∧ cs.all Char.isDigit ∧ Nat.ofDigitChars 10 cs 0 < 2 ^ 64 then
    some (Nat.ofDigitChars 10 cs 0)
  else none

/-- `number`. -/
def number (v : Json) : Except String ℕ :=
  match v with
  | .string s => do
      require (s != "" && decide (s.utf8ByteSize ≤ 20) &&
        (s.utf8ByteSize == 1 || s.toList.head? != some '0'))
      match fromChars s.toList with
      | some n => .ok n
      | none => .error "invalid_application_telemetry"
  | _ => .error "invalid_application_telemetry"

/-- `number(v.at(k))`. -/
def numberAt (v : Json) (k : String) : Except String ℕ := do
  let x ← v.field k
  number x

/-! ## Counters -/

inductive Counter
  | sentMessages | receivedMessages | sentPayloadBytes | receivedPayloadBytes | errors
  | rejectedMessages | backpressureEvents | reconnects | backpressureNs
  deriving DecidableEq, Repr

def Counter.key : Counter → String
  | .sentMessages => "sentMessages"
  | .receivedMessages => "receivedMessages"
  | .sentPayloadBytes => "sentPayloadBytes"
  | .receivedPayloadBytes => "receivedPayloadBytes"
  | .errors => "errors"
  | .rejectedMessages => "rejectedMessages"
  | .backpressureEvents => "backpressureEvents"
  | .reconnects => "reconnects"
  | .backpressureNs => "backpressureNs"

/-- `counters`. -/
def counters : List Counter :=
  [.sentMessages, .receivedMessages, .sentPayloadBytes, .receivedPayloadBytes, .errors,
    .rejectedMessages, .backpressureEvents]

/-- The counters that only reports of edges have. -/
def edgeCounters : List Counter := [.reconnects, .backpressureNs]

inductive Endpoint
  | source | target
  deriving DecidableEq, Repr

def Endpoint.text : Endpoint → String
  | .source => "source"
  | .target => "target"

def endpointOf (v : Json) : Option Endpoint :=
  if v = .string "source" then some .source
  else if v = .string "target" then some .target
  else none

/-- The counters of the other endpoint, which are null. -/
def Endpoint.foreign : Endpoint → List Counter
  | .source => [.receivedMessages, .receivedPayloadBytes]
  | .target => [.sentMessages, .sentPayloadBytes]

/-- The counters that may be null in a report of an edge. -/
def Endpoint.nullable (e : Endpoint) (k : Counter) : Bool :=
  k == .backpressureEvents || e.foreign.contains k

/-- The counter of messages that the latencies are of. -/
def timed : Option Endpoint → Counter
  | some .target => .receivedMessages
  | _ => .sentMessages

/-! ## Texts -/

def edgeVersion : String := "graphlab.application-edge-telemetry/v1"
def nodeVersion : String := "graphlab.application-telemetry/v1"

def lower (c : Char) : Bool := 'a' ≤ c && c ≤ 'z'
def upper (c : Char) : Bool := 'A' ≤ c && c ≤ 'Z'
def digit (c : Char) : Bool := '0' ≤ c && c ≤ '9'

/-- A first character, and at most `n` others. -/
def matchText (first rest : Char → Bool) (n : ℕ) (s : String) : Bool :=
  match s.toList with
  | [] => false
  | c :: cs => first c && decide (cs.length ≤ n) && cs.all rest

/-- `[A-Za-z][A-Za-z0-9_-]{0,63}`. -/
def edgeText : String → Bool :=
  matchText (fun c => upper c || lower c)
    (fun c => upper c || lower c || digit c || c == '_' || c == '-') 63

/-- `[a-z][a-z0-9-]{0,31}`. -/
def streamText : String → Bool := matchText lower (fun c => lower c || digit c || c == '-') 31

/-- `[a-f0-9]{32}`. -/
def epochText (s : String) : Bool :=
  s.toList.length == 32 && s.toList.all fun c => ('a' ≤ c && c ≤ 'f') || digit c

/-- `v.is_string() && std::regex_match(v, ...)`. -/
def isText (p : String → Bool) : Json → Bool
  | .string s => p s
  | _ => false

/-! ## Latencies -/

/-- `upper`, in nanoseconds. -/
def bounds : List ℕ := [10000, 50000, 100000, 500000, 1000000, 5000000, 10000000]

structure Totals where
  total : ℕ := 0
  minimum : ℕ := 0
  maximum : ℕ := 0

/-- The loop over the buckets, with the least number of the next one. -/
def addBuckets : ℕ → List ℕ → Totals → List Json → Except String Totals
  | _, _, t, [] => .ok t
  | lo, bs, t, v :: vs => do
      let n ← number v
      require (decide (n ≤ 2 ^ 64 - 1 - t.total))
      match bs with
      | b :: bs =>
        addBuckets (b + 1) bs
          { total := t.total + n, minimum := t.minimum + n * lo, maximum := t.maximum + n * b } vs
      | [] => addBuckets lo [] { t with total := t.total + n, minimum := t.minimum + n * lo } vs

/-- The latencies of a report, with the counter of the messages that they are of. -/
def validateLatency (c : Json) (endpoint : Option Endpoint) (l : Json) : Except String Unit := do
  fields l ["kind", "count", "sumNs", "buckets"]
  let kind ← l.field "kind"
  require (decide (kind = .string "local-service-time"))
  let count ← numberAt l "count"
  let sum ← numberAt l "sumNs"
  let b ← l.field "buckets"
  require (match b with
    | .array vs => vs.length == 8
    | _ => false)
  let t ← addBuckets 0 bounds {} b.elements
  require (t.total == count)
  let messages ← numberAt c (timed endpoint).key
  require (decide (count ≤ messages) && decide (t.minimum ≤ sum))
  let last ← number (b.elements.getD 7 .null)
  require (decide (0 < last) || decide (sum ≤ t.maximum))
  require (count != 0 || sum == 0)

/-- `r.contains("latency")`. -/
def validateLatencies (c : Json) (endpoint : Option Endpoint) : Option Json → Except String Unit
  | some l => validateLatency c endpoint l
  | none => .ok ()

/-! ## Validation -/

/-- The kind of a report: of a node, or of an endpoint of an edge. -/
def validateKind (r : Json) : Except String (Option Endpoint) := do
  let version ← r.field "apiVersion"
  if version = .string edgeVersion then do
    fields r ["apiVersion", "stream", "epoch", "sequence", "elapsedNs", "counters", "latency",
      "edge", "endpoint"]
    let edge ← r.field "edge"
    require (isText edgeText edge)
    let endpoint ← r.field "endpoint"
    require (endpointOf endpoint).isSome
    return endpointOf endpoint
  else do
    fields r ["apiVersion", "stream", "epoch", "sequence", "elapsedNs", "counters", "latency"]
    require (decide (version = .string nodeVersion))
    return none

/-- A counter that only reports of edges have. -/
def validateEdgeCounter (c : Json) (k : Counter) : Except String Unit := do
  let v ← c.field k.key
  if v = .null then return ()
  else do
    let _ ← number v

/-- A counter of the other endpoint. -/
def validateForeign (c : Json) (k : Counter) : Except String Unit := do
  let v ← c.field k.key
  require (decide (v = .null))

/-- A counter that every report has. -/
def validateCounter (c : Json) (endpoint : Option Endpoint) (k : Counter) : Except String Unit := do
  let v ← c.field k.key
  match endpoint with
  | some e =>
    if v = .null then require (e.nullable k)
    else do
      let _ ← number v
  | none => do
      let _ ← number v

/-- What the counters of a report of this kind are. -/
def validateShape (c : Json) : Option Endpoint → Except String Unit
  | some e => do
      fields c ((counters ++ edgeCounters).map Counter.key)
      each (validateEdgeCounter c) edgeCounters
      each (validateForeign c) e.foreign
  | none => fields c (counters.map Counter.key)

def validateCounters (c : Json) (endpoint : Option Endpoint) : Except String Unit := do
  validateShape c endpoint
  each (validateCounter c endpoint) counters

/-- `max_report_bytes`. -/
def maxReportBytes : ℕ := 3072

/-- `validate`. -/
def validate (r : Json) : Except String Json := do
  require (decide (r.dumpSize ≤ maxReportBytes))
  let endpoint ← validateKind r
  let stream ← r.field "stream"
  require (isText streamText stream)
  let epoch ← r.field "epoch"
  require (isText epochText epoch)
  let sequence ← numberAt r "sequence"
  require (decide (0 < sequence))
  let _ ← numberAt r "elapsedNs"
  let c ← r.field "counters"
  validateCounters c endpoint
  validateLatencies c endpoint (r.find? "latency")
  return r

/-! ## Rates -/

/-- `v[k]`, of a report that was accepted. -/
def member (v : Json) (k : String) : Json := (v.find? k).getD .null

/-- A counter against that of the report before. -/
def compareCounter (p r : Json) (k : Counter) : Except String Unit := do
  let old := member (member p "counters") k.key
  let new := member (member r "counters") k.key
  require (decide (old = .null) == decide (new = .null))
  if new = .null then return ()
  else do
    let n ← number new
    let m ← number old
    require (decide (m ≤ n))

/-- A bucket against that of the report before. -/
def compareBucket (p r : Json) (i : ℕ) : Except String Unit := do
  let n ← number ((member (member r "latency") "buckets").elements.getD i .null)
  let m ← number ((member (member p "latency") "buckets").elements.getD i .null)
  require (decide (m ≤ n))

/-- The latencies against those of the report before. -/
def compareLatency (p r : Json) : Except String Unit := do
  require ((p.find? "latency").isSome == (r.find? "latency").isSome)
  if (r.find? "latency").isSome then do
    let n ← number (member (member r "latency") "sumNs")
    let m ← number (member (member p "latency") "sumNs")
    require (decide (m ≤ n))
    each (compareBucket p r) (List.range 8)
  else return ()

/-- What only reports of edges have against those of the report before. -/
def compareEdge (p r : Json) : Except String Unit :=
  if (r.find? "edge").isSome then do
    require (decide (p.find? "edge" = r.find? "edge") &&
      decide (p.find? "endpoint" = r.find? "endpoint"))
    each (compareCounter p r) edgeCounters
  else .ok ()

/-- A report against one before it in the same epoch. -/
def compareReports (p r : Json) : Except String Unit := do
  let n ← number (member r "sequence")
  let m ← number (member p "sequence")
  require (decide (m < n))
  let n ← number (member r "elapsedNs")
  let m ← number (member p "elapsedNs")
  require (decide (m < n))
  require (decide (p.find? "apiVersion" = r.find? "apiVersion") &&
    decide (p.find? "stream" = r.find? "stream"))
  compareEdge p r
  each (compareCounter p r) counters
  compareLatency p r

/-- What `derive` says of the latencies. -/
structure Latency where
  count : ℕ
  meanUs : Option ℚ := none
  p95UpperBoundUs : Option ℕ := none
  p95Overflow : Bool := false

/-- The result of `derive`. -/
structure Envelope where
  report : Json
  collectorEpoch : String
  /-- The rates of `rated`. -/
  rates : Option (List (Option ℚ)) := none
  gapReason : Option String := none
  latency : Option Latency := none

/-- The counters with a rate. -/
def rated : List Counter :=
  [.sentMessages, .receivedMessages, .sentPayloadBytes, .receivedPayloadBytes]

/-- The value of a number that was accepted. -/
def valueOf (v : Json) : ℕ := (number v).toOption.getD 0

def rateOf (p r : Json) (k : Counter) : Option ℚ :=
  let new := member (member r "counters") k.key
  if new = .null then none
  else
    let delta := valueOf (member r "elapsedNs") - valueOf (member p "elapsedNs")
    some ((valueOf new - valueOf (member (member p "counters") k.key) : ℕ) /
      ((delta : ℚ) / 1000000000))

/-- `gap` and the rates. -/
def deriveRates (old : Option Envelope) (r : Json) (collector : String) :
    Except String (Option String × Option (List (Option ℚ))) :=
  match old with
  | none => .ok (some "first_sample", none)
  | some old => do
      let p := old.report
      if member p "epoch" ≠ member r "epoch" then return (some "workload_restarted", none)
      else do
        compareReports p r
        let delta := valueOf (member r "elapsedNs") - valueOf (member p "elapsedNs")
        if old.collectorEpoch ≠ collector then return (some "collector_restarted", none)
        else if 15000000000 < delta then return (some "sample_gap", none)
        else return (none, some (rated.map (rateOf p r)))

/-- The loop for the 95th percentile. -/
def scanBuckets (rank : ℕ) : ℕ → List ℕ → List Json → Option (Option ℕ)
  | cumulative, bs, v :: vs =>
    let cumulative := cumulative + valueOf v
    match bs with
    | b :: bs => if rank ≤ cumulative then some (some b) else scanBuckets rank cumulative bs vs
    | [] => if rank ≤ cumulative then some none else scanBuckets rank cumulative [] vs
  | _, _, [] => none

/-- `upper` of `derive`, in microseconds. -/
def boundsUs : List ℕ := [10, 50, 100, 500, 1000, 5000, 10000]

/-- The rank of the 95th percentile. -/
def rankOf (count : ℕ) : ℕ := count - count / 20

def deriveLatency (l : Json) : Latency :=
  let count := valueOf (member l "count")
  if count = 0 then { count }
  else
    let found := scanBuckets (rankOf count) 0 boundsUs (member l "buckets").elements
    { count
      meanUs := some ((valueOf (member l "sumNs") : ℚ) / count / 1000)
      p95UpperBoundUs := found.join
      p95Overflow := found == some none }

/-- `derive`. -/
def derive (old : Option Envelope) (input : Json) (collector : String) : Except String Envelope := do
  let r ← validate input
  let (gapReason, rates) ← deriveRates old r collector
  return { report := r, collectorEpoch := collector, rates, gapReason
           latency := (r.find? "latency").map deriveLatency }

end Graphlab.Application
