import Graphlab.Capture.Retained
import Graphlab.Lib.Newest
import Graphlab.Packets.Decoder
import Mathlib.Data.String.Basic

/-!
# The packet catalog

The tables of `packet-history.sqlite` and the statements that the packet history runs on
them: `recycle` keeps the receipts of the newest segments, `prune` the newest rows, `known`
says whether a segment is to be indexed, `save` indexes one.  A transaction is a function;
if it throws, the store stays as it was.

Texts are compared as SQLite and `std::string` do, by their characters.  Counters of the
database are natural numbers; an `AUTOINCREMENT` key stays below `2 ^ 63`.  What the
encoder of `nlohmann::json` and the hashes return are parameters (`Codec`).

## Main definitions

* `Store` — the tables.
* `Store.recycle`, `Store.prune`, `Store.known`, `Store.save`, `Store.clear`.
-/

namespace Graphlab.Packets

open Lib Capture

/-! ## Tables -/

/-- How the history writes and hashes values. -/
structure Codec where
  /-- The bytes of a row's body. -/
  size : Row → ℕ
  sha256 : Bytes → String
  digest : Json → String
  /-- A digest is `sha256:` and 64 hexadecimal digits. -/
  digest_size : ∀ v, Json.quotedSize (digest v) = 73

inductive SegmentState
  | indexed | recordLimit | failed
  deriving DecidableEq, Repr

/-- The status of a segment. -/
structure Status where
  state : SegmentState := .indexed
  sha256 : Json
  size : Json
  packetCount : Option String := none
  omittedRecords : Option String := none
  indexedRecords : Option ℕ := none
  error : Option String := none
  artifactId : String := ""
  edge : String := ""
  deriving DecidableEq

/-- A row of `packet_segments`.  A receipt of the first version has no ordering key. -/
structure Receipt where
  run : String
  artifact : String
  body : Status
  orderKey : String
  deriving DecidableEq

/-- A row of `packet_rows`. -/
structure Stored where
  id : ℕ
  run : String
  artifact : String
  edge : String
  nodeA : String
  nodeB : String
  protocol : String
  time : ℤ
  body : Row
  deriving DecidableEq

inductive MaintenanceState
  | queued | running | completed | interrupted | failed
  deriving DecidableEq, Repr

/-- The row of `packet_maintenance`. -/
structure Maintenance where
  id : String
  runId : String
  state : MaintenanceState := .queued
  error : Option String := none
  deriving DecidableEq, Repr

/-- The database.  `sequence` is the largest key that `packet_rows` has used; `evicted` is no
column, it lists the receipts that `recycle` has deleted. -/
structure Store where
  epoch : String
  generation : ℕ := 0
  segments : List Receipt := []
  rows : List Stored := []
  sequence : ℕ := 0
  floor : String := ""
  retired : ℕ := 0
  maintenance : Option Maintenance := none
  evicted : List Receipt := []
  deriving DecidableEq

/-! ## Receipts -/

/-- A receipt that has its ordering key. -/
def Receipt.keyed (r : Receipt) : Bool := r.orderKey != ""

/-- Whether a receipt is that of a segment. -/
def Receipt.names (r : Receipt) (run artifact : String) : Bool :=
  r.run == run && r.artifact == artifact

/-- A receipt of the first version gets its key. -/
def Receipt.label (run artifact key : String) (r : Receipt) : Receipt :=
  if r.names run artifact && !r.keyed then { r with orderKey := key } else r

namespace Store

/-- The receipts that have an ordering key. -/
def keyed (s : Store) : List Receipt := s.segments.filter Receipt.keyed

/-- `recycle`. -/
def recycle (s : Store) : Store :=
  match ranked 1000 (s.keyed.map Receipt.orderKey) with
  | none => s
  | some key =>
    let old := fun r : Receipt => r.keyed && decide (r.orderKey ≤ key)
    { s with
      floor := max s.floor key
      retired := s.retired + (s.segments.filter old).length
      segments := s.segments.filter fun r => !old r
      evicted := s.evicted ++ s.segments.filter old }

/-! ## Rows -/

/-- The bytes of the bodies of some rows. -/
def bodyBytes (enc : Codec) (rows : List Stored) : ℕ :=
  (rows.map fun r => enc.size r.body).sum

/-- Whether the loop of `prune` goes on. -/
def large (enc : Codec) (rows : List Stored) : Bool :=
  decide (16 * 1024 * 1024 < bodyBytes enc rows)

/-- The loop of `prune`: batches of the oldest rows go while the bodies are too large. -/
def shed (enc : Codec) (rows : List Stored) : List Stored :=
  if large enc rows then shed enc (rows.drop 2000) else rows
termination_by rows.length
decreasing_by
  rename_i hlarge
  have hne : rows ≠ [] := by
    rintro rfl
    simp [large, bodyBytes] at hlarge
  have := List.length_pos_iff.mpr hne
  rw [List.length_drop]
  omega

/-- The rows that are not a day old. -/
def recent (wall : ℤ) (rows : List Stored) : List Stored :=
  rows.filter fun r => decide (wall - 86400 ≤ r.time)

/-- The newest 20000 rows. -/
def newest (rows : List Stored) : List Stored := rows.drop (rows.length - 20000)

/-- `prune`, at a time of the wall clock. -/
def prune (enc : Codec) (wall : ℤ) (s : Store) : Store :=
  let unexpired := recent wall s.rows
  let counted := newest unexpired
  -- the last one: the body of the loop ran
  let changed := unexpired.length != s.rows.length || counted.length != unexpired.length ||
    large enc counted
  { s with
    rows := shed enc counted
    generation := if changed then s.generation + 1 else s.generation }

/-! ## Segments -/

/-- The answer of `known`. -/
inductive Standing
  /-- There is a receipt. -/
  | receipted
  /-- The key is at or below the floor. -/
  | retired
  | new
  deriving DecidableEq, Repr

/-- The update of `known`. -/
def label (s : Store) (run artifact key : String) : Store :=
  { s with segments := s.segments.map (Receipt.label run artifact key) }

/-- `known`. -/
def known (s : Store) (run artifact key : String) (rebuild : Bool) : Standing × Store :=
  match s.segments.find? (·.names run artifact) with
  | some r =>
    if r.keyed then (.receipted, s) else (.receipted, (s.label run artifact key).recycle)
  | none => if !rebuild && decide (key ≤ s.floor) then (.retired, s) else (.new, s)

/-- The insertions of `save`. -/
def insert (s : Store) (receipt : Receipt) (rows : List Stored) : Store :=
  { s with
    segments := s.segments ++ [receipt]
    rows := s.rows ++ rows
    sequence := s.sequence + rows.length }

end Store

/-- The node of an endpoint, which stands before its colon. -/
def node (endpoint : String) : String :=
  String.ofList (endpoint.toList.takeWhile (· != ':'))

/-- The nodes of an edge. -/
def nodes (run : Run) (edge : String) : String × String :=
  run.edges.foldl
    (fun found e => if e.id = edge then (node e.endpoints.1, node e.endpoints.2) else found)
    ("", "")

def Protocol.text : Protocol → String
  | .other => "other"
  | .arp => "arp"
  | .ipv4 => "ipv4"
  | .ipv6 => "ipv6"
  | .icmp => "icmp"
  | .icmpv6 => "icmpv6"
  | .tcp => "tcp"
  | .udp => "udp"

/-- The rows of a segment as they are inserted after the key `sequence`.  `clock` gives the
readings of the wall clock. -/
def stored (run : Run) (c : Descriptor) (artifact : String) (clock : ℕ → ℤ) (sequence : ℕ)
    (rows : List Row) : List Stored :=
  rows.mapIdx fun i row =>
    { id := sequence + 1 + i
      run := run.id.text
      artifact
      edge := c.edge
      nodeA := (nodes run c.edge).1
      nodeB := (nodes run c.edge).2
      protocol := row.headers.protocol.text
      time := clock i
      body := row }

namespace Store

/-- `save`. -/
def save (enc : Codec) (s : Store) (run : Run) (c : Descriptor) (artifact key : String)
    (status : Status) (rows : List Row) (clock : ℕ → ℤ) : Except String Store := do
  check "packet_database_error" (!s.segments.any (·.names run.id.text artifact))
  check "packet_record_byte_limit" (rows.all fun row => decide (enc.size row ≤ 2048))
  check "packet_storage_full" (decide (s.sequence + rows.length < 2 ^ 63))
  let receipt : Receipt :=
    { run := run.id.text
      artifact
      body := { status with artifactId := artifact, edge := c.edge }
      orderKey := key }
  let inserted := s.insert receipt (stored run c artifact clock s.sequence rows)
  return (inserted.prune enc (clock rows.length)).recycle

/-- The transaction of `rebuild`. -/
def clear (s : Store) (run : Run) (id : String) : Store :=
  { s with
    rows := s.rows.filter (·.run != run.id.text)
    segments := s.segments.filter (·.run != run.id.text)
    generation := s.generation + 1
    maintenance := some { id, runId := run.id.text } }

/-- `maintenance` with another state. -/
def maintain (s : Store) (state : MaintenanceState) (error : Option String := none) : Store :=
  { s with maintenance := s.maintenance.map fun m => { m with state, error := error.or m.error } }

end Store

end Graphlab.Packets
