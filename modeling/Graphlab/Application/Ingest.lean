import Graphlab.Application.Accepted
import Mathlib.Data.Prod.Lex

/-!
# The store of reports

Two tables of a database: the latest report of every series, and the history of all reports.  A
report is compared with the latest one of its series; what is accepted is written to both tables in
one transaction, which then deletes what is beyond the limits of the tables.

A series is a run with a key: the key of a node's reports is the node, that of an endpoint's is
`node/edge/endpoint`.

The encoded size of a body, the clocks and the statements that fail are inputs of a call.

## Main definitions

* `Store`, `Row`, `Body` — the tables.
* `prune` — the limits; `within_fitWithin`.
* `ingestSeries`, `ingest`, `ingestEdge` — the calls.
-/

namespace Graphlab.Application

open Lib

/-! ## Tables -/

/-- The body of a row. -/
structure Body where
  envelope : Envelope
  node : String
  workloadInstance : Option String
  edge : Option Json
  runId : String
  observedAt : String
  receivedMonotonicNs : ℕ

structure Row where
  rowid : ℕ
  run : String
  key : String
  time : ℤ
  body : Body
  /-- The bytes of the encoded body. -/
  size : ℕ

structure Store where
  /-- `application_latest`. -/
  latest : List Row := []
  /-- `application_history`. -/
  history : List Row := []

/-- `body.value("workloadInstance", "")`. -/
def Row.instanceId (r : Row) : String := r.body.workloadInstance.getD ""

def Row.report (r : Row) : Json := r.body.envelope.report

def Row.inSeries (r : Row) (run key : String) : Bool := r.run == run && r.key == key

/-- The rowid of a new row. -/
def nextRowid (rows : List Row) : ℕ := (rows.map Row.rowid).foldl max 0 + 1

/-- By time, and by rowid among rows of one time. -/
def Row.age (r : Row) : ℤ ×ₗ ℕ := toLex (r.time, r.rowid)

/-- The last `n` rows in the order of a key. -/
def lastOn {κ : Type} [LinearOrder κ] (key : Row → κ) (n : ℕ) (rows : List Row) : List Row :=
  (sortOn key rows).drop (rows.length - n)

/-- `sum(length(CAST(body AS BLOB)))`. -/
def total (rows : List Row) : ℕ := (rows.map Row.size).sum

/-- Delete the hundred oldest rows while the bodies have too many bytes, so many times at most. -/
def fitWithin (budget : ℕ) : ℕ → List Row → List Row
  | 0, rows => rows
  | n + 1, rows =>
    if total rows ≤ budget then rows else fitWithin budget n ((sortOn Row.age rows).drop 100)

/-- The loop over a table's budget. -/
def fit (budget : ℕ) (rows : List Row) : List Row := fitWithin budget rows.length rows

namespace Store

variable (s : Store)

/-- `SELECT body FROM application_latest WHERE run=? AND node=?`. -/
def find (run key : String) : Option Row := s.latest.find? (·.inSeries run key)

/-- `INSERT OR REPLACE INTO application_latest`. -/
def replaceLatest (r : Row) : Store :=
  { s with latest := { r with rowid := nextRowid s.latest } ::
      s.latest.filter fun old => !old.inSeries r.run r.key }

/-- `INSERT INTO application_history`. -/
def insertHistory (r : Row) : Store :=
  { s with history := { r with rowid := nextRowid s.history } :: s.history }

/-- `DELETE FROM application_history WHERE time<?`. -/
def pruneTime (limit : ℤ) : Store := { s with history := s.history.filter fun r => limit ≤ r.time }

def pruneHistory : Store := { s with history := lastOn Row.rowid 10000 s.history }

def pruneLatest : Store := { s with latest := lastOn Row.age 1000 s.latest }

def fitLatest : Store := { s with latest := fit (4 * 1024 * 1024) s.latest }

def fitHistory : Store := { s with history := fit (32 * 1024 * 1024) s.history }

end Store

/-! ## Transactions -/

/-- The tables, and what a rollback restores. -/
structure Database where
  store : Store
  saved : Option Store := none

/-- Run statements in order and commit; what is at the place of the fault fails. -/
def execute : List (Store → Store) → Option ℕ → Database → Bool × Database
  | _, some 0, db => (false, db)
  | [], _, db => (true, db)
  | op :: ops, fault, db => execute ops (fault.map Nat.pred) { db with store := op db.store }

/-- `ROLLBACK`. -/
def Database.rollback (db : Database) : Database := ⟨db.saved.getD db.store, none⟩

/-- `BEGIN IMMEDIATE`, the statements, and `COMMIT`, which is the last that can fail. -/
def transact (ops : List (Store → Store)) (fault : Option ℕ) (s : Store) :
    Except String Unit × Store :=
  match execute ops fault ⟨s, some s⟩ with
  | (true, db) => (.ok (), db.store)
  | (false, db) => (.error "application_telemetry_database", db.rollback.store)

/-! ## Calls -/

/-- What a call finds. -/
structure Clock where
  observedAt : String := ""
  receivedMonotonicNs : ℕ := 0
  /-- The bytes of the encoded body. -/
  size : ℕ := 0
  /-- `wall()`, for the two rows and for the limit of the history. -/
  latestTime : ℤ := 0
  historyTime : ℤ := latestTime
  pruneTime : ℤ := historyTime
  /-- The latest report cannot be read. -/
  unreadable : Bool := false
  /-- The transaction cannot be begun. -/
  busy : Bool := false
  /-- The place of the statement that fails. -/
  fault : Option ℕ := none

/-- A report of a series. -/
structure Submission where
  run : String
  node : String
  key : String
  /-- Empty for the report of a node. -/
  instanceId : String
  report : Json
  collector : String

/-- The statements of the transaction. -/
def statements (x : Submission) (body : Body) (e : Clock) : List (Store → Store) :=
  let row (time : ℤ) : Row := { rowid := 0, run := x.run, key := x.key, time, body, size := e.size }
  [(·.replaceLatest (row e.latestTime)), (·.insertHistory (row e.historyTime)),
    (·.pruneTime (e.pruneTime - 86400)), Store.pruneHistory, Store.pruneLatest, Store.fitLatest,
    Store.fitHistory]

/-- The workload of the series' latest report is another one. -/
def replaced (x : Submission) (row : Row) : Bool :=
  x.instanceId != "" && row.instanceId != x.instanceId

/-- The report that the new one is compared with. -/
def baseline (x : Submission) (row : Option Row) : Option Envelope :=
  row.bind fun r => if replaced x r then none else some r.body.envelope

/-- The same report again: of the same epoch and number.  Another one of this number is an error. -/
def repeated (old : Option Envelope) (r : Json) : Except String Bool :=
  match old with
  | none => .ok false
  | some old =>
    if member old.report "epoch" = member r "epoch" ∧
        member old.report "sequence" = member r "sequence" then
      if old.report ≠ r then .error "application_report_sequence_conflict" else .ok true
    else if member old.report "stream" ≠ member r "stream" then .error "application_stream_changed"
    else .ok false

/-- What is written of a report; none of one that is repeated. -/
def bodyOf (s : Store) (x : Submission) (e : Clock) : Except String (Option Body) := do
  check "application_telemetry_database" !e.unreadable
  let row := s.find x.run x.key
  let old := baseline x row
  let validated ← validate x.report
  let again ← repeated old validated
  if again then return none
  else do
    let envelope ← derive old validated x.collector
    check "application_record_size" (decide (e.size ≤ 4096))
    return some
      { envelope :=
          if row.any (replaced x) then { envelope with gapReason := some "workload_instance_changed" }
          else envelope
        node := x.node
        workloadInstance := if x.instanceId = "" then none else some x.instanceId
        edge := x.report.find? "edge"
        runId := x.run
        observedAt := e.observedAt
        receivedMonotonicNs := e.receivedMonotonicNs }

/-- `ingest_series`, with what it has written. -/
def ingestSeries (s : Store) (x : Submission) (e : Clock) : Except String (Option Body) × Store :=
  match bodyOf s x e with
  | .error message => (.error message, s)
  | .ok none => (.ok none, s)
  | .ok (some body) =>
    if e.busy then (.error "application_telemetry_database", s)
    else
      match transact (statements x body e) e.fault s with
      | (.ok (), s) => (.ok (some body), s)
      | (.error message, s) => (.error message, s)

/-- `v.value(k, missing)`. -/
def valueAt (v : Json) (k : String) (missing : Json) : Except String Json :=
  match v with
  | .object _ => .ok ((v.find? k).getD missing)
  | _ => .error "json.exception.type_error.306"

/-- An edge of the topology has this endpoint at the node. -/
def boundTo (topology edge endpoint : Json) (node : String) : Except String Bool := do
  let application ← valueAt topology "application" (.object [])
  let edges ← valueAt application "edges" (.array [])
  edges.elements.foldlM (fun bound x => do
    let id ← x.field "id"
    if id = edge then do
      let name ← endpoint.text
      let other ← x.field name
      return bound || decide (other = .string node)
    else return bound) false

inductive Call
  /-- `ingest`. -/
  | node (run node : String) (report : Document) (collector : String) (clock : Clock)
  /-- `ingest_edge`. -/
  | edge (run node instanceId : String) (topology : Json) (report : Document) (collector : String)
      (clock : Clock)

/-- The series of a call, unless it is refused before. -/
def Call.submission : Call → Except String Submission
  | .node run name report collector _ => do
      let version ← report.value.field "apiVersion"
      check "application_report_requires_edge_binding" (decide (version = .string nodeVersion))
      return { run, node := name, key := name, instanceId := "", report := report.value, collector }
  | .edge run name instanceId topology report collector _ => do
      let r ← validate report.value
      let version ← r.field "apiVersion"
      check "application_edge_identity" (decide (version = .string edgeVersion) && instanceId != "")
      let link ← r.field "edge"
      let endpoint ← r.field "endpoint"
      let bound ← boundTo topology link endpoint name
      check "application_edge_identity" bound
      let link ← link.text
      let side ← endpoint.text
      return { run, node := name, key := name ++ "/" ++ link ++ "/" ++ side, instanceId, report := r
               collector }

def Call.clock : Call → Clock
  | .node _ _ _ _ clock => clock
  | .edge _ _ _ _ _ _ clock => clock

/-- A call, with the series and the body of a report that is accepted. -/
def Call.ingest (s : Store) (c : Call) : Except String (Option (Submission × Body)) × Store :=
  match c.submission with
  | .error message => (.error message, s)
  | .ok x =>
    match ingestSeries s x c.clock with
    | (.error message, s) => (.error message, s)
    | (.ok body, s) => (.ok (body.map (x, ·)), s)

/-! ## Limits -/

theorem mem_fitWithin {budget n : ℕ} {rows : List Row} {r : Row} (h : r ∈ fitWithin budget n rows) :
    r ∈ rows := by
  induction n generalizing rows with
  | zero => exact h
  | succ n ih =>
    rw [fitWithin] at h
    split at h
    · exact h
    · exact (sortOn_perm _ _).mem_iff.mp (List.mem_of_mem_drop (ih h))

/-- So many rows and bytes at most. -/
def Within (m budget : ℕ) (rows : List Row) : Prop := rows.length ≤ m ∧ total rows ≤ budget

/-- The loop ends once the bodies fit. -/
theorem within_fitWithin {budget m n : ℕ} {rows : List Row} (hm : rows.length ≤ m)
    (hn : rows.length ≤ n) : Within m budget (fitWithin budget n rows) := by
  induction n generalizing rows with
  | zero =>
    rw [fitWithin, List.length_eq_zero_iff.mp (Nat.le_zero.mp hn)]
    exact ⟨Nat.zero_le _, Nat.zero_le _⟩
  | succ n ih =>
    rw [fitWithin]
    split
    · exact ⟨hm, ‹_›⟩
    · have hlength := (sortOn_perm Row.age rows).length_eq
      exact ih (by grind) (by grind)

theorem mem_lastOn {κ : Type} [LinearOrder κ] {key : Row → κ} {n : ℕ} {rows : List Row} {r : Row}
    (h : r ∈ lastOn key n rows) : r ∈ rows :=
  (sortOn_perm _ _).mem_iff.mp (List.mem_of_mem_drop h)

end Graphlab.Application
