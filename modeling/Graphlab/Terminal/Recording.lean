import Graphlab.Lib.Base64
import Graphlab.Lib.Writes

/-!
# Terminal recordings

`Recording` appends records to a file; `replay` reads a page of records from one.  A write
may fail and leave a part of a record behind; the recording goes on from what it counted.

A file has no byte beyond the largest offset, so no counter of a recording, which counts
records or bytes of its file, comes near the end of its 64 bits.

## Main definitions

* `Record.frame` — a record in the file.
* `Recording.create`, `Recording.append`, `Recording.appendAll`.
* `replay` — a page; `follow` — pages, each from where the one before it ended.
-/

namespace Graphlab.Terminal

open Lib

/-! ## The format -/

/-- `"GLTERM1\0"`. -/
def magic : Bytes := [0x47, 0x4c, 0x54, 0x45, 0x52, 0x4d, 0x31, 0]

structure Record where
  type : ℕ
  sequence : ℕ
  monotonicNs : ℕ
  offset : ℕ
  bytes : Bytes
  deriving DecidableEq, Repr

/-- The 32 bytes before the payload. -/
def Record.header (r : Record) : Bytes :=
  Bytes.little 4 r.type ++ Bytes.little 4 r.bytes.length ++ Bytes.little 8 r.sequence ++
    Bytes.little 8 r.monotonicNs ++ Bytes.little 8 r.offset

/-- A record in the file. -/
def Record.frame (r : Record) : Bytes := r.header ++ r.bytes

/-- `encode`. -/
def encode (b : Bytes) : String := String.ofList (Base64.encode b)

/-! ## Appending -/

/-- A file has no byte at or beyond this offset: `off_t` is signed. -/
def largestOffset : ℕ := 2 ^ 63 - 1

structure Recording where
  /-- `fd_` is a file that is open for writing. -/
  fd : Bool := true
  /-- The content of the file at `path_`. -/
  file : Bytes := magic
  size : ℕ := 8
  sequence : ℕ := 0
  output : ℕ := 0
  budget : ℕ
  deriving DecidableEq, Repr

/-- A call of `append`: its arguments, the nanoseconds since `anchor_`, what the system answers
to the writes. -/
structure Append where
  type : ℕ
  bytes : Bytes
  elapsed : ℕ := 0
  writes : List Wrote := []
  deriving DecidableEq, Repr

namespace Recording

/-- The constructor. -/
def create (budget : ℕ) (opened : Bool) (writes : List Wrote) (synced : Bool) :
    Except String Recording :=
  if !opened then .error "recording_exists_or_unavailable"
  else if !(writeAll writes magic).2 then .error "recording_write_failed"
  else if !synced then .error "recording_sync_failed"
  else .ok { budget }

/-- The record that a call of `append` writes. -/
def next (r : Recording) (a : Append) : Record where
  type := a.type
  sequence := r.sequence
  monotonicNs := a.elapsed % 2 ^ 64
  offset := r.output
  bytes := a.bytes

/-- `all`: what the file takes of `b`, and whether it is everything.  The bytes beyond the
largest offset are refused, whatever the system answers before. -/
def all (r : Recording) (b : Bytes) (writes : List Wrote) : Bytes × Bool :=
  let room := b.take (largestOffset - r.file.length)
  ((writeAll writes room).1, (writeAll writes room).2 && room.length == b.length)

/-- `append`. -/
def append (r : Recording) (a : Append) : Except String Unit × Recording :=
  if a.type < 1 || 5 < a.type || 65536 < a.bytes.length || !r.fd then (.error "invalid_record", r)
  else if r.budget < r.size + 32 + a.bytes.length then (.error "recording_quota_exhausted", r)
  else
    let b := (r.next a).frame
    match r.all b a.writes with
    | (part, false) => (.error "recording_write_failed", { r with file := r.file ++ part })
    | (_, true) =>
      (.ok (), { r with
        file := r.file ++ b
        size := r.size + b.length
        sequence := r.sequence + 1
        output := if a.type = 1 then r.output + a.bytes.length else r.output })

/-- Calls of `append` that all return. -/
def appendAll : Recording → List Append → Except String Recording
  | r, [] => .ok r
  | r, a :: calls =>
    match r.append a with
    | (.error e, _) => .error e
    | (.ok _, r') => r'.appendAll calls

end Recording

/-! ## Replay -/

/-- A record of a page.  Numbers are sent in decimal. -/
structure Shown where
  type : ℕ
  sequence : ℕ
  monotonicNs : ℕ
  offset : ℕ
  base64 : String
  deriving DecidableEq, Repr

/-- What a page shows of a record. -/
def Record.shown (r : Record) : Shown where
  type := r.type
  sequence := r.sequence
  monotonicNs := r.monotonicNs
  offset := r.offset
  base64 := encode r.bytes

structure Page where
  records : List Shown := []
  next : ℕ
  partialTail : Bool := false
  deriving DecidableEq, Repr

/-- `get`. -/
def get (b : Bytes) (i k : ℕ) : ℕ := Bytes.value ((b.drop i).take k)

/-- The record at the start of `h`, with a payload of `n` bytes. -/
def parse (h : Bytes) (n : ℕ) : Record where
  type := get h 0 4
  sequence := get h 8 8
  monotonicNs := get h 16 8
  offset := get h 24 8
  bytes := (h.drop 32).take n

/-- The loop of `replay` on what is left of the file.  `expected` is the number of records that
were read, `bytes` the length of the payloads on the page. -/
def replayFrom (start expected bytes : ℕ) (page : Page) (rest : Bytes) : Except String Page :=
  if rest.length = 0 then .ok page
  else if hheader : rest.length < 32 then .ok { page with partialTail := true }
  else
    let n := get rest 4 4
    let r := parse rest n
    if 65536 < n || r.sequence != expected || r.type < 1 || 5 < r.type then
      .error "invalid_recording"
    else if rest.length - 32 < n then .ok { page with partialTail := true }
    else if r.sequence < start then replayFrom start (expected + 1) bytes page (rest.drop (32 + n))
    else if 65536 < bytes + n && !page.records.isEmpty then .ok page
    else
      let page' := { page with records := page.records ++ [r.shown], next := r.sequence + 1 }
      if 128 ≤ page'.records.length then .ok page'
      else replayFrom start (expected + 1) (bytes + n) page' (rest.drop (32 + n))
termination_by rest.length
decreasing_by all_goals simp only [List.length_drop]; omega

/-- `replay` of a file; none where the path is not a regular file that can be read. -/
def replay (file : Option Bytes) (start : ℕ) : Except String Page :=
  match file with
  | none => .error "invalid_recording"
  | some b =>
    if b.take 8 = magic then replayFrom start 0 0 { next := start } (b.drop 8)
    else .error "invalid_recording"

/-- At most so many calls of `replay`, each from where the page before ended, up to a page that
shows no record; none when the calls do not suffice. -/
def follow : ℕ → Option Bytes → ℕ → Except String (Option (List Page))
  | 0, _, _ => .ok none
  | calls + 1, file, start => do
      let page ← replay file start
      if page.records.isEmpty then return some [page]
      return (← follow calls file page.next).map (page :: ·)

end Graphlab.Terminal
