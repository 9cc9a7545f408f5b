import Graphlab.Packets.Catalog

/-!
# The packet history

`packets::History`: one worker scans the captures of a run and indexes the segments that
their manifests list; queries read the index page by page, prune it and ask for a scan.

All that happens is a `Step`: one critical section of the source's mutex, so a crash falls
between two steps.  The worker collects the candidates of a scan, then looks at one after
the other and saves those that are new; queries may come between any two of its steps.  A
step carries what it reads from outside, the disk, the clock and whether SQLite fails.

A query is typed here: that its fields are known ones of the right JSON type is checked
before, and a cursor is given by the value that its text parses to.

## Main definitions

* `collect` — the candidates of a scan; `examine` — what a segment's file gives.
* `History.query` — one page.
* `Step`, `History.step`, `History.run`.
-/

namespace Graphlab.Packets

open Lib Capture

/-! ## Candidates -/

/-- `integer`. -/
def integer : Json → Except String ℕ
  | .string s =>
    match decimal s with
    | some n =>
      if s.utf8ByteSize ≤ 19 && decide (n < 2 ^ 63) then .ok n
      else .error "invalid_packet_integer"
    | none => .error "invalid_packet_integer"
  | _ => .error "invalid_packet_integer"

/-- `[0-9]{4}-[0-9]{2}-[0-9]{2}T[0-9]{2}:[0-9]{2}:[0-9]{2}Z`. -/
def closedTime (s : String) : Bool :=
  let shape := "0000-00-00T00:00:00Z".toList
  s.toList.length == shape.length &&
    (shape.zip s.toList).all fun (t, c) => if t = '0' then c.isDigit else c == t

/-- A sequence number with leading zeros. -/
def pad (sequence : ℕ) : String :=
  let seq := toString sequence
  String.ofList (List.replicate (19 - seq.utf8ByteSize) '0') ++ seq

/-- The ordering key of a segment. -/
def orderKey (closed : String) (run capture : Name) (sequence : ℕ) : String :=
  closed ++ "/" ++ run.text ++ "/" ++ capture.text ++ "/" ++ pad sequence

/-- A segment that a manifest lists. -/
structure Candidate where
  capture : Descriptor
  segment : Json
  sequence : ℕ

/-- The artifact that a segment is. -/
def Candidate.artifact (x : Candidate) : String :=
  x.capture.id.text ++ "-" ++ toString x.sequence

/-- One segment of a manifest. -/
def collectSegment (run : Run) (c : Descriptor) (w : Window String Candidate) (s : Json) :
    Except String (Window String Candidate) := do
  let sequence ← integer (← s.field "sequence")
  let closed ← (← s.field "closedAt").text
  check "invalid_segment_closed_time" (closedTime closed)
  return w.add 1000 (orderKey closed run.id c.id sequence) ⟨c, s, sequence⟩

def collectSegments (run : Run) (c : Descriptor) :
    List Json → Window String Candidate → Except String (Window String Candidate)
  | [], w => .ok w
  | s :: rest, w => do collectSegments run c rest (← collectSegment run c w s)

/-- One capture. -/
def collectCapture (disk : Disk) (run : Run) (c : Descriptor) (w : Window String Candidate) :
    Except String (Window String Candidate) :=
  match disk.manifest c.directory with
  | none => .error "capture_manifest_unavailable"
  | some manifest => do
      let id ← manifest.field "id"
      check "capture_manifest_identity_changed" (decide (id = .string c.id.text))
      let runId ← manifest.field "runId"
      check "capture_manifest_identity_changed" (decide (runId = .string run.id.text))
      let mapping ← manifest.field "mapping"
      check "capture_manifest_identity_changed" (decide (mapping = c.mapping))
      let bootId ← manifest.field "bootId"
      check "capture_manifest_identity_changed" (decide (bootId = .string c.bootId))
      let segments ← manifest.field "segments"
      collectSegments run c segments.elements w

def collectCaptures (disk : Disk) (run : Run) :
    List Descriptor → Window String Candidate → Except String (Window String Candidate)
  | [], w => .ok w
  | c :: rest, w => do collectCaptures disk run rest (← collectCapture disk run c w)

/-- The first loop of `scan`. -/
def collect (disk : Disk) (run : Run) : Except String (Window String Candidate) :=
  collectCaptures disk run run.captures {}

/-! ## Segments -/

/-- `verified`. -/
def verified (enc : Codec) (file : File) (segment : Json) : Except String Bytes := do
  let size ← integer (← segment.field "size")
  check "segment_byte_limit" (decide (size ≤ 128 * 1024 * 1024))
  match file with
  | .absent => .error "packet_artifact_unavailable"
  | .irregular => .error "packet_artifact_size_changed"
  | .unreadable actual =>
    if actual = size then .error "packet_artifact_read" else .error "packet_artifact_size_changed"
  | .content bytes => do
      check "packet_artifact_size_changed" (decide (bytes.length = size))
      let sha256 ← (← segment.field "sha256").text
      check "packet_artifact_checksum_mismatch" (decide (enc.sha256 bytes = sha256))
      return bytes

/-- The file of a segment. -/
def Candidate.path (x : Candidate) : String :=
  x.capture.directory ++ "/" ++ toString x.sequence ++ ".pcapng"

/-- The labels of a segment's rows. -/
def Candidate.context (x : Candidate) (run : Run) (sha256 : String) : Context :=
  { labels :=
      [("runId", run.id.text), ("artifactId", x.artifact), ("artifactSha256", sha256),
        ("captureId", x.capture.id.text), ("captureEpoch", x.capture.epoch),
        ("edge", x.capture.edge), ("interface", x.capture.interface),
        ("captureEndpoint", x.capture.canonicalEndpoint)] }

/-- The `try` block of `scan`. -/
def examine (enc : Codec) (disk : Disk) (run : Run) (x : Candidate) : Except String Decoded := do
  let state ← x.segment.field "state"
  check "segment_not_finalized" (decide (state = .string "closed"))
  let file ← x.segment.field "file"
  check "segment_not_finalized" (decide (file = .string (toString x.sequence ++ ".pcapng")))
  let bytes ← verified enc (disk.file x.path) x.segment
  let sha256 ← (← x.segment.field "sha256").text
  let decoded ← decode bytes (x.context run sha256) 2000
  let packets ← x.segment.field "packets"
  check "manifest_packet_count_mismatch" (decide (packets = .string decoded.packetCount))
  return decoded

/-- `substr(0, 160)`. -/
def brief (e : String) : String := String.ofList (e.toList.take 160)

/-- The status and the rows that `scan` saves for a segment. -/
def indexed (enc : Codec) (disk : Disk) (run : Run) (x : Candidate) :
    Except String (Status × List Row) := do
  let sha256 ← x.segment.field "sha256"
  let size ← x.segment.field "size"
  match examine enc disk run x with
  | .ok decoded =>
    let status : Status :=
      { sha256, size
        state := if decoded.omittedRecords = "0" then .indexed else .recordLimit
        packetCount := some decoded.packetCount
        omittedRecords := some decoded.omittedRecords
        indexedRecords := some decoded.items.length }
    return (status, decoded.items)
  | .error e => return ({ sha256, size, state := .failed, error := some (brief e) }, [])

/-! ## The state -/

/-- A run snapshot that waits for the worker. -/
structure Request where
  run : Run
  rebuild : Bool := false
  deriving DecidableEq

/-- Where the worker is in a scan. -/
inductive Phase
  | collecting
  /-- About to look at the first of the candidates; so many were accepted. -/
  | visiting (left : List (String × Candidate)) (accepted : ℕ)
  /-- About to save a segment that `known` calls new. -/
  | saving (key : String) (next : Candidate) (left : List (String × Candidate)) (accepted : ℕ)

structure Scan where
  request : Request
  phase : Phase

/-- `History::Impl`.  The worker is busy while there is a scan. -/
structure History where
  store : Store
  pending : Option Request := none
  scan : Option Scan := none
  error : String := ""
  activeRun : String := ""
  retiredInScan : ℕ := 0
  windowTruncated : Bool := false

/-! ## Queries -/

structure Filter where
  node : String := ""
  edge : String := ""
  protocol : String := ""
  deriving DecidableEq, Repr

/-- The parameters of a query. -/
structure Page where
  filter : Filter := {}
  limit : ℤ := 100
  cursor : Option Json := none

/-- What a cursor holds. -/
structure Cursor where
  epoch : String
  scope : String
  generation : ℕ
  top : ℕ
  before : ℕ
  deriving DecidableEq, Repr

def Cursor.json (c : Cursor) : Json :=
  .object [("before", .string (toString c.before)), ("epoch", .string c.epoch),
    ("generation", .string (toString c.generation)), ("scope", .string c.scope),
    ("top", .string (toString c.top))]

/-- The scope of a query. -/
def scope (enc : Codec) (run : Run) (f : Filter) : String :=
  enc.digest (.object
    [("filter", .object [("edge", .string f.edge), ("node", .string f.node),
        ("protocol", .string f.protocol)]),
      ("run", .string run.id.text)])

/-- A text that a cursor must have. -/
def cursorText (c : Json) (k : String) : Except String String :=
  match c.find? k with
  | some (.string s) => .ok s
  | _ => .error "invalid_packet_cursor"

/-- The bounds `top` and `before` that a cursor gives. -/
def resume (enc : Codec) (s : Store) (run : Run) (f : Filter) (c : Json) :
    Except String (ℕ × ℕ) := do
  check "invalid_packet_cursor" (decide (c.dumpSize ≤ 512))
  check "invalid_packet_cursor" ((c.find? "generation").isSome)
  check "invalid_packet_cursor" ((c.find? "top").isSome && (c.find? "before").isSome)
  let given ← cursorText c "scope"
  let epoch ← cursorText c "epoch"
  check "packet_cursor_scope" (given == scope enc run f && epoch == s.epoch)
  check "packet_history_expired"
    (decide (c.find? "generation" = some (.string (toString s.generation))))
  let top ← integer (← c.field "top")
  let before ← integer (← c.field "before")
  return (top, before)

/-- The rows that a query is about. -/
def Filter.matches (f : Filter) (run : Run) (r : Stored) : Bool :=
  r.run == run.id.text && (f.edge == "" || r.edge == f.edge) &&
    (f.node == "" || r.nodeA == f.node || r.nodeB == f.node) &&
    (f.protocol == "" || r.protocol == f.protocol)

/-- The answer to a query, as far as it depends on the tables. -/
structure Answer where
  items : List (ℕ × Row)
  nextCursor : Option Cursor
  segments : List Status
  indexing : Bool
  indexBusy : Bool
  indexRequestAccepted : Bool
  indexError : Option String
  retainedRecords : ℕ
  retainedRecordBytes : ℕ
  retirementBoundary : String
  retiredCatalogEntries : ℕ

/-- The matching rows up to `top` and below `before`, the newest first. -/
def Store.matching (s : Store) (run : Run) (f : Filter) (top before : ℕ) : List Stored :=
  (s.rows.filter fun r => f.matches run r && decide (r.id ≤ top ∧ r.id < before)).reverse

/-- The largest key of a row. -/
def Store.top (s : Store) : ℕ := (s.rows.map Stored.id).foldl max 0

namespace History

/-- The page between the bounds, of a store that is pruned; also ask for a scan. -/
def serve (enc : Codec) (h : History) (run : Run) (p : Page) (top before : ℕ) :
    Answer × History :=
  let scheduled := h.scan.isNone && h.pending.isNone
  let h := if scheduled then { h with pending := some { run } } else h
  let s := h.store
  let limit := p.limit.toNat
  let found := (s.matching run p.filter top before).take (limit + 1)
  let items := if limit < found.length then found.dropLast else found
  let nextCursor := if limit < found.length then
      items.getLast?.map fun last =>
        { epoch := s.epoch, scope := scope enc run p.filter, generation := s.generation, top,
          before := last.id }
    else none
  let answer : Answer :=
    { items := items.map fun r => (r.id, r.body)
      nextCursor
      segments := (s.segments.filter (·.run == run.id.text)).mergeSort
        (fun a b => decide (a.artifact ≤ b.artifact)) |>.map Receipt.body
      indexing := (h.scan.isSome && h.activeRun == run.id.text) || scheduled
      indexBusy := h.scan.isSome
      indexRequestAccepted := scheduled
      indexError := if h.error == "" || h.activeRun != run.id.text then none else some h.error
      retainedRecords := s.rows.length
      retainedRecordBytes := Store.bodyBytes enc s.rows
      retirementBoundary := s.floor
      retiredCatalogEntries := s.retired }
  (answer, h)

/-- `query` at a time of the wall clock.  What it throws after pruning leaves the store
pruned. -/
def query (enc : Codec) (h : History) (run : Run) (p : Page) (wall : ℤ) :
    Except String Answer × History :=
  if p.limit < 1 ∨ 200 < p.limit then (.error "invalid_packet_limit", h)
  else if 128 < p.filter.node.utf8ByteSize ∨ 128 < p.filter.edge.utf8ByteSize ∨
      128 < p.filter.protocol.utf8ByteSize then (.error "invalid_packet_filter", h)
  else
    let h := { h with store := h.store.prune enc wall }
    match p.cursor with
    | none =>
      let (answer, h) := h.serve enc run p h.store.top (h.store.top + 1)
      (.ok answer, h)
    | some c =>
      match resume enc h.store run p.filter c with
      | .error e => (.error e, h)
      | .ok (top, before) =>
        let (answer, h) := h.serve enc run p top before
        (.ok answer, h)

/-! ## Steps -/

/-- `rebuild`. -/
def rebuild (h : History) (run : Run) (id : String) : Except String Maintenance × History :=
  if h.scan.isSome || h.pending.isSome then (.error "packet_index_busy", h)
  else
    (.ok { id, runId := run.id.text },
      { h with store := h.store.clear run id, pending := some { run, rebuild := true } })

/-- The worker catches what `scan` throws. -/
def abandon (h : History) (request : Request) (e : String) : History :=
  let error := brief e
  { h with
    store := if request.rebuild then h.store.maintain .failed (some error) else h.store
    scan := none
    error }

/-- `work` takes the request. -/
def take (h : History) : History :=
  match h.scan, h.pending with
  | none, some request =>
    { h with
      pending := none
      scan := some { request, phase := .collecting }
      activeRun := request.run.id.text
      error := ""
      retiredInScan := 0
      windowTruncated := false }
  | _, _ => h

/-- The worker in the scan of a request goes on to another phase. -/
def goto (h : History) (request : Request) (phase : Phase) : History :=
  { h with scan := some { request, phase } }

/-- The first loop of the scan. -/
def collecting (h : History) (disk : Disk) (request : Request) : History :=
  let h := { h with
    store := if request.rebuild then h.store.maintain .running else h.store }
  match collect disk request.run with
  | .error e => h.abandon request e
  | .ok w => { h with windowTruncated := w.truncated }.goto request (.visiting w.entries 0)

/-- One candidate: `known`, and whether it is to be saved. -/
def look (h : History) (request : Request) (key : String) (next : Candidate)
    (left : List (String × Candidate)) (accepted : ℕ) : History :=
  let (standing, store) := h.store.known request.run.id.text next.artifact key request.rebuild
  match standing with
  | .receipted => { h with store }.goto request (.visiting left accepted)
  | .retired =>
    { h with store, retiredInScan := h.retiredInScan + 1 }.goto request (.visiting left accepted)
  | .new =>
    -- a break leaves the loop
    if !request.rebuild && decide (128 ≤ accepted) then h.goto request (.visiting [] accepted)
    else h.goto request (.saving key next left (accepted + 1))

/-- Index a candidate that is new. -/
def saveNext (enc : Codec) (h : History) (disk : Disk) (clock : ℕ → ℤ) (request : Request)
    (key : String) (next : Candidate) (left : List (String × Candidate)) (accepted : ℕ) :
    History :=
  let saved := do
    let (status, rows) ← indexed enc disk request.run next
    h.store.save enc request.run next.capture next.artifact key status rows clock
  match saved with
  | .error e => h.abandon request e
  | .ok store => { h with store }.goto request (.visiting left accepted)

/-- The next critical section of the worker.  SQLite may fail in it: its transaction is
rolled back and the scan ends. -/
def work (enc : Codec) (h : History) (disk : Disk) (clock : ℕ → ℤ) (fault : Option String) :
    History :=
  match h.scan with
  | none => h.take
  | some ⟨request, phase⟩ =>
    match fault with
    | some e => h.abandon request e
    | none =>
      match phase with
      | .collecting => h.collecting disk request
      | .visiting [] _ =>
        { h with
          store := if request.rebuild then h.store.maintain .completed else h.store
          scan := none }
      | .visiting ((key, next) :: left) accepted => h.look request key next left accepted
      | .saving key next left accepted =>
        h.saveNext enc disk clock request key next left accepted

/-- The process ends and the constructor opens the database again. -/
def restart (h : History) : History :=
  let unfinished := fun m : Maintenance => m.state == .queued || m.state == .running
  let store := if h.store.maintenance.any unfinished then h.store.maintain .interrupted else h.store
  { store }

end History

/-- What happens to a history.  A query or rebuild that SQLite fails changes nothing. -/
inductive Step
  | query (run : Run) (page : Page) (wall : ℤ)
  | rebuild (run : Run) (id : String)
  | work (disk : Disk) (clock : ℕ → ℤ) (fault : Option String)
  | restart

namespace History

def step (enc : Codec) (h : History) : Step → History
  | .query run page wall => (h.query enc run page wall).2
  | .rebuild run id => (h.rebuild run id).2
  | .work disk clock fault => h.work enc disk clock fault
  | .restart => h.restart

def run (enc : Codec) (h : History) (steps : List Step) : History := steps.foldl (step enc) h

end History

end Graphlab.Packets
