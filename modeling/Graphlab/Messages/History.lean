import Graphlab.Lib.Fallible
import Graphlab.Lib.Json
import Graphlab.Lib.Text
import Mathlib.Data.Finset.Basic
import Mathlib.Data.String.Basic

/-!
# The history of observed messages

Workloads report the messages they observed; `History` validates the reports and keeps the
events and one ledger per source in `messages.sqlite`.  Every ingest is one transaction: it
is committed as a whole, or what it threw leaves the database as it was.

The functions of `nlohmann::json` and `digest` that are only handed through are parameters
(`Codec`).  Counters are decimals of at most 18 digits, so no sum of two overflows.

## Main definitions

* `validate` — whether a report is well formed.
* `Store`, `History.ingest`, `Store.prune`, `History.query`.
* `Step`, `History.run` — what happens to a history.
-/

namespace Graphlab.Messages

open Lib
open Std (TreeMap)

/-! ## Fields of a request -/

/-- `str`: a field that is a text, not empty and of at most `max` bytes. -/
def str (p : Json) (k : String) (max : ℕ := 128) : Except String String :=
  match p.find? k with
  | some (.string s) =>
    if s = "" || max < s.utf8ByteSize then .error "invalid_message_contract" else .ok s
  | _ => .error "invalid_message_contract"

/-- `number`. -/
def number (p : Json) (k : String) : Except String ℕ := do
  let s ← str p k 18
  match decimal s with
  | some n => .ok n
  | none => .error "invalid_message_counter"

/-- `fields`. -/
def fields (p : Json) (allowed : List String) : Except String Unit :=
  match p with
  | .object fs => check "invalid_message_field" (fs.all fun f => allowed.contains f.1)
  | _ => .error "invalid_message_contract"

/-- `p.value(k, "")`, of an object. -/
def value (p : Json) (k : String) : Except String String :=
  match p.find? k with
  | none => .ok ""
  | some (.string s) => .ok s
  | some _ => .error "json.exception.type_error.302"

/-- `p.at(k)`. -/
def at' (p : Json) (k : String) : Except String Json :=
  match p.find? k with
  | some v => .ok v
  | none => .error "json.exception.out_of_range.403"

/-! ## Reports -/

/-- `[a-f0-9]`. -/
def hexChar (c : Char) : Bool := ('a' ≤ c && c ≤ 'f') || ('0' ≤ c && c ≤ '9')

/-- `[a-f0-9]{n}`. -/
def hexText (n : ℕ) (s : String) : Bool := s.toList.length == n && s.toList.all hexChar

/-- One event of a report; its time. -/
def validateEvent (expected previous : ℕ) (e : Json) : Except String ℕ := do
  fields e ["sequence", "messageId", "traceId", "stream", "kind", "payloadLength",
    "timestampMonotonicNs", "phase"]
  let sequence ← number e "sequence"
  check "invalid_message_event" (sequence == expected)
  let id ← str e "messageId"
  check "invalid_message_event" (hexText 48 id)
  let trace ← at' e "traceId"
  check "invalid_message_event" (decide (trace = .string id))
  let stream ← value e "stream"
  check "invalid_message_event" (stream == "alpha" || stream == "beta")
  let kind ← value e "kind"
  check "invalid_message_event" (kind == "send" || kind == "receive")
  let phase ← value e "phase"
  check "invalid_message_event" (phase == "request" || phase == "response")
  let length ← number e "payloadLength"
  check "invalid_message_event" (length == 53)
  let time ← number e "timestampMonotonicNs"
  check "message_clock_regressed" (decide (previous ≤ time))
  return time

def validateEvents : ℕ → ℕ → List Json → Except String Unit
  | _, _, [] => .ok ()
  | expected, previous, e :: es => do
      let time ← validateEvent expected previous e
      validateEvents (expected + 1) time es

/-- The events of a report. -/
def events (r : Json) : List Json :=
  match r.find? "events" with
  | some (.array es) => es
  | _ => []

/-- `validate`. -/
def validate (r : Json) : Except String Json := do
  check "message_report_limit" (decide (r.dumpSize ≤ 3500))
  fields r ["apiVersion", "epoch", "clock", "payloadRecorded", "total", "evicted", "events"]
  let version ← value r "apiVersion"
  check "invalid_message_contract" (version == "graphlab.message-observations/v1")
  let clock ← value r "clock"
  check "invalid_message_contract" (clock == "reporter-monotonic-ns")
  check "invalid_message_contract" (decide (r.find? "payloadRecorded" = some (.bool false)))
  let epoch ← str r "epoch"
  check "invalid_message_contract" (hexText 32 epoch)
  check "invalid_message_contract" (decide (r.find? "events" = some (.array (events r))))
  check "invalid_message_contract" (decide ((events r).length ≤ 8))
  let total ← number r "total"
  let evicted ← number r "evicted"
  check "message_window_invalid" (decide (evicted ≤ total) && total - evicted == (events r).length)
  validateEvents (evicted + 1) 0 (events r)
  return r

/-! ## The database -/

/-- The body of an event; what is the same in all bodies is left out. -/
structure Body where
  runId : String
  node : String
  workloadInstance : String
  reporterEpoch : String
  clock : Json
  observation : Json
  observedAt : String
  collectorEpoch : String
  deriving DecidableEq, Repr

/-- A row of `events`. -/
structure Row where
  id : ℕ
  k : String
  seq : ℕ
  stream : String
  created : ℕ
  body : Body
  deriving DecidableEq, Repr

/-- A row of `sources`, but for its key. -/
structure Source where
  run : String
  node : String
  workloadInstance : String
  epoch : String
  high : ℕ
  missed : ℕ
  evicted : ℕ
  checked : ℕ
  collector : String
  deriving DecidableEq, Repr

structure Store where
  sources : TreeMap String Source := ∅
  /-- In the order of their ids. -/
  events : List Row := []
  /-- The id that was given last: `AUTOINCREMENT`. -/
  sequence : ℕ := 0
  /-- Every row that was inserted; the database does not keep them. -/
  inserted : List Row := []

/-- What the source takes from libraries: a digest of texts, the length of a body that is
written as text. -/
structure Codec where
  digest : List String → String
  length : Body → ℕ

namespace Store

variable (codec : Codec)

/-- The event that `prune` deletes next. -/
def victim (events : List Row) (now : ℕ) : Option Row :=
  events.find? fun e =>
    decide (e.created + 86400 < now) || decide (4096 < events.length) ||
      decide (4194304 < (events.map (codec.length ·.body)).sum)

/-- At most so many rounds of the loop of `prune`. -/
def pruneRows : ℕ → List Row → ℕ → List Row
  | 0, events, _ => events
  | rounds + 1, events, now =>
    match victim codec events now with
    | none => events
    | some row => pruneRows rounds (events.filter (·.id != row.id)) now

/-- `prune`. -/
def prune (s : Store) (now : ℕ) : Store :=
  { s with events := pruneRows codec s.events.length s.events now }

/-- The row of `events` with a key and a sequence. -/
def find? (s : Store) (k : String) (seq : ℕ) : Option Row :=
  s.events.find? fun e => e.k == k && e.seq == seq

/-- `INSERT INTO events`: the key and the sequence are unique. -/
def insert (s : Store) (k : String) (seq : ℕ) (stream : String) (created : ℕ) (body : Body) :
    Except String Store :=
  match s.find? k seq with
  | some _ => .error "message_database_error"
  | none =>
    let row := { id := s.sequence + 1, k, seq, stream, created, body }
    .ok { s with
      events := s.events ++ [row]
      sequence := s.sequence + 1
      inserted := s.inserted ++ [row] }

end Store

/-! ## Ingest -/

structure History where
  db : Store := {}
  collector : String
  error : String := ""

/-- A call of `ingest`: its arguments, the time, and the failure of a statement of the
transaction, if one fails. -/
structure Ingest where
  context : Json
  input : Json
  now : ℕ
  observedAt : String := ""
  failure : Option String := none

/-- The loop over the events of a report that is ingested under the key `k`. -/
def absorb (k : String) (high now : ℕ) (body : Json → Body) :
    Store → List Json → Except String Store
  | s, [] => .ok s
  | s, e :: es => do
      let seq ← number e "sequence"
      if seq ≤ high then
        match s.find? k seq with
        | some row =>
          if row.body.observation = e then absorb k high now body s es
          else .error "message_sequence_conflict"
        | none => absorb k high now body s es
      else
        let stream ← value e "stream"
        let s ← s.insert k seq stream now (body e)
        absorb k high now body s es

/-- The row of `sources` after a report; the row that was there keeps what identifies it. -/
def Source.after (old : Option Source) (run node workloadInstance epoch : String)
    (total evicted now : ℕ) (collector : String) : Source where
  run := old.elim run Source.run
  node := old.elim node Source.node
  workloadInstance := old.elim workloadInstance Source.workloadInstance
  epoch := old.elim epoch Source.epoch
  high := total
  -- `max(0, evicted - high)`: a difference of natural numbers.
  missed := old.elim 0 Source.missed + (evicted - old.elim 0 Source.high)
  evicted := evicted
  checked := now
  collector := collector

/-- The transaction of `ingest`. -/
def transaction (codec : Codec) (h : History) (run node workloadInstance epoch : String) (r : Json)
    (now : ℕ) (observedAt : String) : Except String Store := do
  let k := codec.digest [run, node, workloadInstance, epoch]
  let old := h.db.sources[k]?
  let high := old.elim 0 Source.high
  let total ← number r "total"
  let evicted ← number r "evicted"
  check "message_report_regressed" (decide (high ≤ total))
  check "message_source_capacity" (old.isSome || decide (h.db.sources.size < 256))
  let clock ← at' r "clock"
  let s ← absorb k high now (fun e =>
    { runId := run, node, workloadInstance, reporterEpoch := epoch, clock, observation := e,
      observedAt, collectorEpoch := h.collector }) h.db (events r)
  let source := Source.after old run node workloadInstance epoch total evicted now h.collector
  return Store.prune codec { s with sources := s.sources.insert k source } now

/-- What `ingest` commits, or throws. -/
def History.ingested (codec : Codec) (h : History) (a : Ingest) : Except String Store := do
  let run ← str a.context "runId"
  let node ← str a.context "node"
  let workloadInstance ← str a.context "instance"
  let r ← validate a.input
  let epoch ← str r "epoch"
  match a.failure with
  | some e => .error e
  | none => transaction codec h run node workloadInstance epoch r a.now a.observedAt

/-- `ingest`.  What is thrown rolls the transaction back. -/
def History.ingest (codec : Codec) (h : History) (a : Ingest) : Except String Unit × History :=
  match h.ingested codec a with
  | .ok db => (.ok (), { h with db })
  | .error e => (.error e, h)

/-! ## Query -/

/-- The account of a source. -/
structure Account where
  workloadInstance : String
  epoch : String
  total : ℕ
  missedBeforeIngestion : ℕ
  reporterEvicted : ℕ
  retained : ℕ
  expiredOrPruned : ℤ
  stale : Bool
  deriving DecidableEq, Repr

structure Answer where
  items : List (ℕ × Body)
  sources : List Account
  nextCursor : Option String
  error : String
  sourceCapacityReached : Bool
  deriving DecidableEq, Repr

namespace History

/-- The account of the source with the key `k`. -/
def account (h : History) (now : ℕ) (k : String) (s : Source) : Account :=
  let retained := h.db.events.countP fun e => e.k == k && decide (now ≤ e.created + 86400)
  { workloadInstance := s.workloadInstance
    epoch := s.epoch
    total := s.high
    missedBeforeIngestion := s.missed
    reporterEvicted := s.evicted
    retained
    expiredOrPruned := s.high - s.missed - retained
    stale := decide (s.checked + 15 < now) || s.collector != h.collector }

/-- The accounts of the sources of a node. -/
def accounts (h : History) (now : ℕ) (run node : String) : List Account :=
  (h.db.sources.toList.filter fun x => x.2.run == run && x.2.node == node).map
    fun x => h.account now x.1 x.2

/-- The events that a query selects, the newest first. -/
def selected (h : History) (now : ℕ) (run node stream : String) (before : ℕ) : List Row :=
  (h.db.events.filter fun e =>
    (h.db.sources[e.k]?).any (fun s => s.run == run && s.node == node) &&
      (stream == "" || e.stream == stream) && decide (e.id < before) &&
      decide (now ≤ e.created + 86400)).reverse

/-- The id in a cursor; without a cursor, the largest number there is. -/
def before (scope : String) (p : Json) : Except String ℕ :=
  match p.find? "cursor" with
  | none => .ok (2 ^ 63 - 1)
  | some _ => do
      let c ← str p "cursor" 256
      check "message_cursor_scope" ((scope ++ ".").toList.isPrefixOf c.toList)
      number (.object [("n", .string (String.ofList (c.toList.drop (scope.length + 1))))]) "n"

/-- The stream that is asked for; empty for all. -/
def stream (p : Json) : Except String String :=
  if (p.find? "stream").isSome then str p "stream" else .ok ""

/-- `query`. -/
def query (codec : Codec) (h : History) (p : Json) (now : ℕ) : Except String Answer := do
  fields p ["runId", "node", "stream", "cursor"]
  let run ← str p "runId"
  let node ← str p "node"
  let stream ← stream p
  check "message_stream_invalid" (stream == "" || stream == "alpha" || stream == "beta")
  let scope := codec.digest [run, node, stream]
  let before ← before scope p
  let page := (h.selected now run node stream before).take 21
  return {
    items := (page.take 20).map fun e => (e.id, e.body)
    sources := h.accounts now run node
    nextCursor :=
      if 20 < page.length then (page.take 20).getLast?.map fun e => scope ++ "." ++ toString e.id
      else none
    error := h.error
    sourceCapacityReached := decide (256 ≤ h.db.sources.size) }

end History

/-! ## Runs -/

/-- What happens to a history. -/
inductive Step
  | ingest (a : Ingest)
  /-- `prune` of the collector.  Each deletion is committed; a failure ends the loop. -/
  | prune (now rounds : ℕ)
  /-- The agent starts anew on the same database. -/
  | restart (collector : String)

namespace History

def step (codec : Codec) (h : History) : Step → History
  | .ingest a => (h.ingest codec a).2
  | .prune now rounds =>
    { h with db := { h.db with events := Store.pruneRows codec rounds h.db.events now } }
  | .restart collector => { db := h.db, collector }

def run (codec : Codec) (h : History) (steps : List Step) : History :=
  steps.foldl (step codec) h

end History

end Graphlab.Messages
