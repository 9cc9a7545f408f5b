import Graphlab.Lib.Writes

/-!
# The capture writer

`capture::Writer` writes segments in PCAPNG and publishes each by a link under its final
name.  Every system call may fail; what it answers is an argument.  A call of the writer
returns or throws, and leaves a writer either way: the caller may go on after an exception.

A file that is being written is the one under the partial name of the current sequence.

## Main definitions

* `frame`, `sectionBody`, `interfaceBody`, `packetBody`, `statisticsBody` — the format.
* `Writer.open'`, `Writer.packet`, `Writer.close` — the calls; `Writer.attempt` and
  `Writer.run` sequences of them.
-/

namespace Graphlab.Capture

open Lib

/-! ## The format -/

/-- The configuration of a writer.  Names are strings of bytes. -/
structure Config where
  snaplen : ℕ
  interface : Bytes
  edge : Bytes
  byteBudget : ℕ

/-- The counters of `pcap_stats`; a counter that is null or absent is `none`. -/
structure Statistics where
  received : Option ℕ := none
  dropped : Option ℕ := none
  deriving DecidableEq, Repr

/-- `u16`, `u32` and `u64`. -/
def u16 (v : ℕ) : Bytes := Bytes.little 2 v
def u32 (v : ℕ) : Bytes := Bytes.little 4 v
def u64 (v : ℕ) : Bytes := u32 v ++ u32 (v / 2 ^ 32)

/-- `pad`. -/
def pad (b : Bytes) : Bytes := b ++ Bytes.padding b.length

/-- `option`. -/
def option (b : Bytes) (key : ℕ) (value : Bytes) : Except String Bytes :=
  if 65535 < value.length then .error "capture_metadata_too_long"
  else .ok (pad (b ++ u16 key ++ u16 value.length ++ value))

/-- What `block` writes. -/
def frame (type : ℕ) (body : Bytes) : Bytes :=
  u32 type ++ u32 (body.length + 12) ++ body ++ u32 (body.length + 12)

/-- The section header. -/
def sectionBody : Bytes := u32 0x1a2b3c4d ++ u16 1 ++ u16 0 ++ u64 (2 ^ 64 - 1)

/-- What the description of an interface says after the edge. -/
def remark : Bytes := "; direction flags unavailable; offloads unknown".toUTF8.data.toList

/-- The interface description. -/
def interfaceBody (c : Config) : Except String Bytes := do
  let b ← option (u16 1 ++ u16 0 ++ u32 c.snaplen) 2 c.interface
  let b ← option b 3 (c.edge ++ remark)
  return pad (b ++ u16 9 ++ u16 1 ++ [6]) ++ u32 0

/-- A packet. -/
def packetBody (micros : ℕ) (bytes : Bytes) (original : ℕ) : Bytes :=
  pad (u32 0 ++ u32 (micros / 2 ^ 32) ++ u32 micros ++ u32 bytes.length ++ u32 original ++ bytes)

/-- A counter in the interface statistics. -/
def counter (code : ℕ) : Option ℕ → Bytes
  | some n => u16 code ++ u16 8 ++ u64 n
  | none => []

/-- The interface statistics. -/
def statisticsBody (now : ℕ) (stats : Statistics) : Bytes :=
  u32 0 ++ u32 (now / 2 ^ 32) ++ u32 now ++ counter 6 stats.received ++ counter 7 stats.dropped ++
    u32 0

/-! ## The writer -/

/-- An entry of `segments()`. -/
structure Segment where
  sequence : String
  file : String
  size : String
  packets : String
  sha256 : String
  state : String := "closed"
  statistics : Statistics
  capturedBytes : String
  originalBytes : String
  truncatedPackets : String
  format : String := "pcapng"
  linkType : ℕ := 1
  snaplen : ℕ
  interface : Bytes
  closedAt : String
  deriving DecidableEq, Repr

structure Writer where
  config : Config
  /-- `fd_` is a file that is open for writing. -/
  fd : Bool := false
  /-- The files of `directory_`. -/
  files : String → Option Bytes
  bytes : ℕ := 0
  total : ℕ := 0
  packets : ℕ := 0
  sequence : ℕ := 0
  capturedBytes : ℕ := 0
  originalBytes : ℕ := 0
  truncatedPackets : ℕ := 0
  segments : List Segment := []
  /-- The blocks that were written to the open file; the source does not count them. -/
  blocks : ℕ := 0

/-- What the system answers to `open`. -/
structure Opening where
  created : Bool := true
  header : List Wrote := []
  description : List Wrote := []
  synced : Bool := true

/-- What the system answers to `close`. -/
structure Closing where
  now : ℕ := 0
  writes : List Wrote := []
  synced : Bool := true
  linked : Bool := true
  unlinked : Bool := true
  directorySynced : Bool := true
  /-- The hash of the published file, or none when it cannot be read. -/
  hash : Option String := some ""
  closedAt : String := ""

/-- What a call of the writer returns or throws, and leaves. -/
abbrev Result := Except String Unit × Writer

namespace Writer

/-- `partial_`. -/
def partialName (w : Writer) : String := toString w.sequence ++ ".pcapng.partial"

/-- The name under which the segment is published. -/
def closedName (w : Writer) : String := toString w.sequence ++ ".pcapng"

/-- The open file. -/
def content (w : Writer) : Bytes := (w.files w.partialName).getD []

/-- More bytes in the open file. -/
def append (w : Writer) (b : Bytes) : Writer :=
  { w with files := Function.update w.files w.partialName (some (w.content ++ b)) }

theorem partialName_ne (w v : Writer) : w.partialName ≠ v.closedName := by
  intro h
  have hlast := congrArg (fun s : String => s.toList.getLast?) h
  simp [partialName, closedName, String.toList_append, List.getLast?_append] at hlast

@[simp] theorem content_append (w : Writer) (b : Bytes) : (w.append b).content = w.content ++ b := by
  simp [content, append, partialName]

theorem append_files {w : Writer} {b : Bytes} {name : String} (h : w.partialName ≠ name) :
    (w.append b).files name = w.files name := Function.update_of_ne h.symm ..

/-- A whole block in the open file. -/
def wrote (w : Writer) (b : Bytes) : Writer :=
  { w.append b with bytes := w.bytes + b.length, blocks := w.blocks + 1 }

@[simp] theorem content_wrote (w : Writer) (b : Bytes) : (w.wrote b).content = w.content ++ b :=
  w.content_append b

/-- A block in the open file changes no published file. -/
theorem wrote_closed (w : Writer) (b : Bytes) :
    (w.wrote b).files (w.wrote b).closedName = w.files w.closedName :=
  append_files (w.partialName_ne w)

/-- `block`. -/
def block (w : Writer) (type : ℕ) (body : Bytes) (writes : List Wrote) : Result :=
  let b := frame type body
  if w.config.byteBudget < w.total + w.bytes + b.length then
    (.error "capture_quota_exhausted", w)
  else if !w.fd then (.error "capture_write_failed", w)
  else match writeAll writes b with
    | (part, false) => (.error "capture_write_failed", w.append part)
    | (all, true) => (.ok (), w.wrote all)

/-- What `block` can do. -/
theorem block_cases (w : Writer) (type : ℕ) (body : Bytes) (writes : List Wrote) :
    (∃ e, w.block type body writes = (.error e, w)) ∨
    w.fd = true ∧ w.total + w.bytes + (frame type body).length ≤ w.config.byteBudget ∧
      ((∃ e part, part <+: frame type body ∧ part.length < (frame type body).length ∧
        w.block type body writes = (.error e, w.append part)) ∨
      w.block type body writes = (.ok (), w.wrote (frame type body))) := by
  unfold block
  dsimp only
  split
  · exact .inl ⟨_, rfl⟩
  next hbudget =>
  split
  · exact .inl ⟨_, rfl⟩
  next hfd =>
  refine .inr ⟨by simpa using hfd, by omega, ?_⟩
  rcases writeAll_cases writes (frame type body) with h | ⟨part, hpart, hlength, h⟩
  · rw [h]
    exact .inr rfl
  · rw [h]
    exact .inl ⟨_, part, hpart, hlength, rfl⟩

/-- A block that fits, and whose writes do not fail. -/
theorem block_ok {w : Writer} {type : ℕ} {body : Bytes} {writes : List Wrote} (hfd : w.fd = true)
    (hbudget : w.total + w.bytes + (frame type body).length ≤ w.config.byteBudget)
    (hwrites : Fine writes) :
    w.block type body writes = (.ok (), w.wrote (frame type body)) := by
  rw [block, if_neg (by omega), if_neg (by simp [hfd]), writeAll_fine hwrites]

/-- `sync`. -/
def sync (w : Writer) (synced : Bool) : Result :=
  if !w.fd || !synced then (.error "capture_sync", w) else (.ok (), w)

@[simp] theorem sync_snd (w : Writer) (synced : Bool) : (w.sync synced).2 = w := by
  unfold sync
  split <;> rfl

theorem sync_cases (w : Writer) (synced : Bool) :
    w.sync synced = (.error "capture_sync", w) ∨ w.sync synced = (.ok (), w) := by
  unfold sync
  split
  · exact .inl rfl
  · exact .inr rfl

/-- The file of the current sequence, created empty. -/
def created (w : Writer) : Writer :=
  { w with
    fd := true
    files := Function.update w.files w.partialName (some [])
    bytes := 0
    packets := 0
    capturedBytes := 0
    originalBytes := 0
    truncatedPackets := 0
    blocks := 0 }

@[simp] theorem content_created (w : Writer) : w.created.content = [] := by
  simp [content, created, partialName]

/-- `open` after the file was created. -/
def openBlocks (w : Writer) (out : Opening) : Result :=
  match w.block 0x0a0d0d0a sectionBody out.header with
  | (.error e, w) => (.error e, w)
  | (.ok _, w) =>
    match interfaceBody w.config with
    | .error e => (.error e, w)
    | .ok b =>
      match w.block 1 b out.description with
      | (.error e, w) => (.error e, w)
      | (.ok _, w) => w.sync out.synced

/-- `open`.  A file that exists is not opened. -/
def open' (w : Writer) (out : Opening) : Result :=
  if w.fd || 1024 ≤ w.sequence then (.error "capture_segment_limit", w)
  else if (w.files w.partialName).isSome || !out.created then (.error "capture_open", w)
  else w.created.openBlocks out

/-- One more packet in the counters. -/
def counted (w : Writer) (captured original : ℕ) : Writer :=
  { w with
    packets := w.packets + 1
    capturedBytes := w.capturedBytes + captured
    originalBytes := w.originalBytes + original
    truncatedPackets := w.truncatedPackets + if captured < original then 1 else 0 }

/-- `packet`. -/
def packet (w : Writer) (micros : ℕ) (bytes : Bytes) (original : ℕ) (writes : List Wrote) :
    Result :=
  if w.config.snaplen < bytes.length || original < bytes.length then
    (.error "invalid_packet_length", w)
  else match w.block 6 (packetBody micros bytes original) writes with
    | (.error e, w) => (.error e, w)
    | (.ok _, w) => (.ok (), w.counted bytes.length original)

/-- The entry of the segment that has just been published. -/
def segment (w : Writer) (stats : Statistics) (hash closedAt : String) : Segment :=
  { sequence := toString w.sequence
    file := w.closedName
    size := toString w.bytes
    packets := toString w.packets
    sha256 := hash
    statistics := stats
    capturedBytes := toString w.capturedBytes
    originalBytes := toString w.originalBytes
    truncatedPackets := toString w.truncatedPackets
    snaplen := w.config.snaplen
    interface := w.config.interface
    closedAt }

/-- The file is linked under its final name. -/
def linked (w : Writer) : Writer :=
  { w with files := Function.update w.files w.closedName (some w.content) }

/-- The partial name is removed. -/
def unlinked (w : Writer) : Writer :=
  { w with files := Function.update w.files w.partialName none }

/-- The segment is recorded. -/
def recorded (w : Writer) (stats : Statistics) (hash closedAt : String) : Writer :=
  { w with
    sequence := w.sequence + 1
    segments := w.segments ++ [w.segment stats hash closedAt]
    total := w.total + w.bytes
    bytes := 0 }

/-- `close` after the file was closed.  The sequence is advanced before the hash is
taken. -/
def publish (w : Writer) (stats : Statistics) (out : Closing) : Result :=
  if (w.files w.closedName).isSome || !out.linked then (.error "capture_finalize", w)
  else if !out.unlinked then (.error "capture_finalize", w.linked)
  else if !out.directorySynced then (.error "capture_directory_sync", w.linked.unlinked)
  else match out.hash with
    | none =>
      (.error "artifact_unavailable", { w.linked.unlinked with sequence := w.sequence + 1 })
    | some hash => (.ok (), w.linked.unlinked.recorded stats hash out.closedAt)

/-- `close`. -/
def close (w : Writer) (stats : Statistics) (out : Closing) : Result :=
  if !w.fd then (.ok (), w)
  else match w.block 5 (statisticsBody out.now stats) out.writes with
    | (.error e, w) => (.error e, w)
    | (.ok _, w) =>
      match w.sync out.synced with
      | (.error e, w) => (.error e, w)
      | (.ok _, w) => { w with fd := false }.publish stats out

end Writer

/-! ## Runs -/

/-- A call of the writer. -/
inductive Call
  | open' (out : Opening)
  | packet (micros : ℕ) (bytes : Bytes) (original : ℕ) (writes : List Wrote)
  | sync (synced : Bool)
  | close (stats : Statistics) (out : Closing)

def Writer.call (w : Writer) : Call → Result
  | .open' out => w.open' out
  | .packet micros bytes original writes => w.packet micros bytes original writes
  | .sync synced => w.sync synced
  | .close stats out => w.close stats out

/-- Calls up to the first exception. -/
def Writer.attempt (w : Writer) : List Call → Result
  | [] => (.ok (), w)
  | c :: cs =>
    match w.call c with
    | (.error e, w) => (.error e, w)
    | (.ok _, w) => w.attempt cs

theorem Writer.attempt_ok {w w' : Writer} {c : Call} (h : w.call c = (.ok (), w'))
    (cs : List Call) : w.attempt (c :: cs) = w'.attempt cs := by
  rw [attempt, h]

/-- Calls whose caller goes on after an exception. -/
def Writer.run (w : Writer) : List Call → Writer
  | [] => w
  | c :: cs => (w.call c).2.run cs

end Graphlab.Capture
