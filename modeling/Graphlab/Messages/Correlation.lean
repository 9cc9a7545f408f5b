import Graphlab.Capture.Retained
import Graphlab.Capture.Writer
import Graphlab.Messages.Reporter
import Graphlab.Packets.Bounds

/-!
# Correlation of a message with captured packets

`messages::correlate` searches the retained captures of a run for packets that carry the
identifier of an event.  It reads what the manifests list, within bounds, and says `exact`
only when it found one packet and left nothing out.

The local variables of the source are a `Tally`; a part that may throw returns the tally as
it is then and the error.  The packets examined are kept as a list; the source counts them.

## Main definitions

* `scanPackets`, `scanSegments`, `scanCaptures` — the three loops.
* `correlate` — the answer.
* `Verified`, `Sealed` — what a search that left nothing out has read.
-/

namespace Graphlab.Messages

open Lib Capture

/-! ## The search -/

/-- What the search takes from its libraries. -/
structure Reader where
  /-- `sha256:` and the digest. -/
  sha256 : Bytes → String
  /-- What `load` throws when a manifest cannot be read or parsed. -/
  refusal : String → String

/-- A packet that carries the identifier. -/
structure Match where
  artifactId : String
  edge : String
  captureEpoch : String
  packetIndex : String
  blockOffset : String
  sha256 : String
  timestampUnixMicros : String
  matchBasis : String := "GLM1/v1 exact 48-hex identifier and stream in verified UDP payload"
  deriving DecidableEq, Repr

/-- The local variables of `correlate`. -/
structure Tally where
  complete : Bool := true
  budget : ℕ := 16 * 1024 * 1024
  segments : ℕ := 0
  examined : List Packets.Row := []
  found : List Match := []
  errors : List String := []
  deriving DecidableEq, Repr

def Tally.incomplete (t : Tally) : Tally := { t with complete := false }

/-- The search stays complete if a condition holds. -/
def Tally.keep (t : Tally) (condition : Bool) : Tally := if condition then t else t.incomplete

/-- Whether an identifier is the one of an observation. -/
def identifies (observation : Json) (x : Identifier) : Except String Bool := do
  let messageId ← observation.entry "messageId"
  let stream ← observation.entry "stream"
  let phase ← observation.entry "phase"
  return decide (messageId = .string (text x.messageId)) &&
    (decide (stream = .string x.stream.text) && decide (phase = .string x.phase.text))

/-- The loop over the packets of a segment. -/
def scanPackets (observation : Json) (entry : Packets.Row → Match) :
    List Packets.Row → Tally → Tally × Option String
  | [], t => (t, none)
  | packet :: rest, t =>
    let t := { t with examined := t.examined ++ [packet] }
    if packet.truncated then scanPackets observation entry rest t.incomplete
    else match packet.headers.fixtureIdentifier with
      | none => scanPackets observation entry rest t
      | some x =>
        match identifies observation x with
        | .error e => (t, some e)
        | .ok false => scanPackets observation entry rest t
        | .ok true =>
          if 64 ≤ t.found.length then (t.incomplete, none)
          else scanPackets observation entry rest { t with found := t.found ++ [entry packet] }

/-- The sequence number of a segment. -/
def sequenceOf (s : Json) : Except String String := do
  let sequence ← (← s.field "sequence").text
  check "message_capture_segment_invalid"
    (sequence ≠ "" && decide (sequence.utf8ByteSize ≤ 8) && sequence.toList.all Char.isDigit)
  return sequence

/-- The file of a segment. -/
def segmentPath (c : Descriptor) (sequence : String) : String :=
  c.directory ++ "/" ++ sequence ++ ".pcapng"

/-- The packets of a segment's bytes. -/
def contents (x : Reader) (s : Json) (bytes : Bytes) : Except String Packets.Decoded := do
  let sha256 ← (← s.field "sha256").text
  check "message_capture_checksum_mismatch" (decide (x.sha256 bytes = sha256))
  let size ← (← s.field "size").text
  check "message_capture_checksum_mismatch" (decide (toString bytes.length = size))
  Packets.decode bytes { decodeMessageIdentifiers := true } 2000

/-- What a match of the segment says. -/
def matchIn (x : Reader) (c : Descriptor) (sequence : String) (bytes : Bytes)
    (packet : Packets.Row) : Match where
  artifactId := c.id.text ++ "-" ++ sequence
  edge := c.edge
  captureEpoch := c.epoch
  packetIndex := packet.packetIndex
  blockOffset := packet.blockOffset
  sha256 := x.sha256 bytes
  timestampUnixMicros := packet.timestampUnixMicros

/-- A file that is none, or too large for what is left of the budget. -/
def Tally.passOver (t : Tally) : Tally :=
  { t with complete := false, errors := t.errors ++ ["capture_scan_byte_limit_or_invalid_file"] }

def Tally.spend (t : Tally) (size : ℕ) : Tally := { t with budget := t.budget - size }

/-- One segment, its count apart. -/
def scanSegment (x : Reader) (disk : Disk) (observation : Json) (c : Descriptor) (s : Json)
    (t : Tally) : Tally × Option String :=
  match sequenceOf s with
  | .error e => (t, some e)
  | .ok sequence =>
    match disk.file (segmentPath c sequence) with
    | .absent => (t, some "message_capture_unavailable")
    | .irregular => (t.passOver, none)
    | .unreadable size =>
      if t.budget < size then (t.passOver, none)
      else (t.spend size, some "message_capture_read")
    | .content bytes =>
      if t.budget < bytes.length then (t.passOver, none)
      else match contents x s bytes with
        | .error e => (t.spend bytes.length, some e)
        | .ok decoded =>
          scanPackets observation (matchIn x c sequence bytes) decoded.items
            ((t.spend bytes.length).keep (decoded.omittedRecords == "0"))

/-- The loop over the segments of a manifest. -/
def scanSegments (x : Reader) (disk : Disk) (observation : Json) (c : Descriptor) :
    List Json → Tally → Tally × Option String
  | [], t => (t, none)
  | s :: rest, t =>
    let counted := { t with segments := t.segments + 1 }
    if 16 ≤ t.segments then (counted.incomplete, none)
    else match scanSegment x disk observation c s counted with
      | (t, some e) => (t, some e)
      | (t, none) => scanSegments x disk observation c rest t

/-- The keys by which a manifest and a descriptor must agree. -/
def identity (c : Descriptor) : List (String × Json) :=
  [("id", .string c.id.text), ("runId", .string c.runId), ("edge", .string c.edge),
    ("epoch", .string c.epoch), ("mapping", c.mapping), ("bootId", .string c.bootId)]

def identify (manifest : Json) : List (String × Json) → Except String Unit
  | [] => .ok ()
  | (k, v) :: rest => do
      let own ← manifest.field k
      check "message_capture_identity_changed" (decide (own = v))
      identify manifest rest

/-- `load`. -/
def load (x : Reader) (disk : Disk) (directory : String) : Except String Json :=
  match disk.manifest directory with
  | some manifest => .ok manifest
  | none => .error (x.refusal (directory ++ "/manifest.json"))

/-- The manifest of a capture, checked, and its state. -/
def openCapture (x : Reader) (disk : Disk) (run : Run) (c : Descriptor) :
    Except String (Json × String) := do
  let manifest ← load x disk c.directory
  check "message_capture_run_mismatch" (decide (c.runId = run.id.text))
  identify manifest (identity c)
  let state ← value manifest "state"
  return (manifest, state)

/-- One capture, within the `try`. -/
def scanCapture (x : Reader) (disk : Disk) (run : Run) (observation : Json) (c : Descriptor)
    (t : Tally) : Tally × Option String :=
  match openCapture x disk run c with
  | .error e => (t, some e)
  | .ok (manifest, state) =>
    match manifest.field "segments" with
    | .error e => (t.keep (state == "closed"), some e)
    | .ok segments =>
      scanSegments x disk observation c segments.elements (t.keep (state == "closed"))

/-- The `catch`. -/
def caught : Tally × Option String → Tally
  | (t, none) => t
  | (t, some e) =>
    { t with
      complete := false
      errors := if t.errors.length < 16 then t.errors ++ [String.ofList (e.toList.take 128)]
        else t.errors }

/-- The loop over the captures. -/
def scanCaptures (x : Reader) (disk : Disk) (run : Run) (observation : Json) (edge : String) :
    List Descriptor → Tally → Tally
  | [], t => t
  | c :: rest, t =>
    if edge ≠ "" && c.edge ≠ edge then scanCaptures x disk run observation edge rest t
    else scanCaptures x disk run observation edge rest
      (caught (scanCapture x disk run observation c t))

/-! ## The answer -/

inductive Verdict
  | unavailable | exact | ambiguous
  deriving DecidableEq, Repr

/-- What `correlate` returns; what is the same in all answers is left out. -/
structure Correlation where
  eventId : String
  status : Verdict
  found : List Match
  searchComplete : Bool
  packetsExamined : String
  errors : List String
  captureCoverage : String
  scope : String
  deriving DecidableEq, Repr

/-- `coverage.find(word) != npos`. -/
def Mentions (coverage word : String) : Prop := word.toList <:+: coverage.toList

instance (coverage word : String) : Decidable (Mentions coverage word) :=
  inferInstanceAs (Decidable (_ <:+: _))

/-- The coverage of a run says that packets are missing. -/
def gaps (run : Run) : Bool :=
  let coverage := run.captureCoverage.getD ""
  decide (Mentions coverage "incomplete") || decide (Mentions coverage "interrupted")

def verdict (run : Run) (t : Tally) : Verdict :=
  if t.found = [] then .unavailable
  else if t.found.length = 1 && t.complete && !gaps run then .exact
  else .ambiguous

/-- The whole search. -/
def search (x : Reader) (disk : Disk) (run : Run) (event : Row) (edge : String) : Tally :=
  scanCaptures x disk run event.body.observation edge run.captures {}

/-- What is said of a search. -/
def answerOf (run : Run) (event : Row) (edge : String) (t : Tally) : Correlation where
  eventId := toString event.id
  status := verdict run t
  found := t.found
  searchComplete := t.complete
  packetsExamined := toString t.examined.length
  errors := t.errors
  captureCoverage := run.captureCoverage.getD "unavailable"
  scope :=
    if edge = "" then "retained run captures (union; occurrences remain distinct)" else edge

@[simp] theorem status_answerOf (run : Run) (event : Row) (edge : String) (t : Tally) :
    (answerOf run event edge t).status = verdict run t := rfl

/-- `correlate`. -/
def correlate (x : Reader) (disk : Disk) (run : Run) (event : Row) (edge : String) :
    Except String Correlation := do
  check "message_run_mismatch" (decide (event.body.runId = run.id.text))
  check "invalid_message_edge" (decide (edge.utf8ByteSize ≤ 128))
  check "message_edge_not_found" (edge = "" || run.edges.any fun e => e.id == edge)
  return answerOf run event edge (search x disk run event edge)

/-! ## Packets that match -/

/-- The identifier is the one of the observation. -/
def names (observation : Json) (x : Identifier) : Bool :=
  decide (observation.find? "messageId" = some (.string (text x.messageId))) &&
    (decide (observation.find? "stream" = some (.string x.stream.text)) &&
      decide (observation.find? "phase" = some (.string x.phase.text)))

/-- The packet decodes to the identifier of the observation. -/
def bears (observation : Json) (packet : Packets.Row) : Bool :=
  packet.headers.fixtureIdentifier.any (names observation)

/-- The packet was captured in full and decodes to the identifier of the observation. -/
def matching (observation : Json) (packet : Packets.Row) : Bool :=
  !packet.truncated && bears observation packet

section Identifies

variable {observation : Json} {x : Identifier}

theorem identifies_ok {b : Bool} (h : identifies observation x = .ok b) :
    names observation x = b := by
  have hfield : ∀ (fields : List (String × Json)) (k s : String),
      decide (((Json.object fields).find? k).getD .null = .string s) =
        decide ((Json.object fields).find? k = some (.string s)) := by
    intro fields k s
    cases (Json.object fields).find? k <;> simp
  cases observation with
  | object =>
    simp only [identifies, Json.entry, ok_bind, pure, Except.pure, Except.ok.injEq, hfield] at h
    exact h
  | null =>
    simp only [identifies, Json.entry, ok_bind, pure, Except.pure, Except.ok.injEq] at h
    rw [← h]
    rfl
  | _ => cases h

theorem identifies_error {e : String} (h : identifies observation x = .error e) :
    names observation x = false := by
  cases observation with
  | object => cases h
  | null => cases h
  | _ => rfl

end Identifies

/-! ## Every packet that matches is counted, up to 64 -/

/-- There are as many matches as examined packets that match, or 64. -/
def Tally.Counted (observation : Json) (t : Tally) : Prop :=
  t.found.length = min 64 (t.examined.countP (matching observation))

variable {s : Json} {edge : String}

section Counted

variable {observation : Json} {t : Tally}

/-- One packet that does not match. -/
theorem Tally.Counted.examine (ht : t.Counted observation) {packet : Packets.Row}
    (h : matching observation packet = false) :
    { t with examined := t.examined ++ [packet] }.Counted observation := by
  simpa [Tally.Counted, h] using ht

theorem scanPackets_counted {entry : Packets.Row → Match} {rows : List Packets.Row}
    (ht : t.Counted observation) :
    (scanPackets observation entry rows t).1.Counted observation := by
  fun_induction scanPackets observation entry rows t with
  | case1 => exact ht
  | case2 packet rest t t' htrunc ih => exact ih (ht.examine (by simp [matching, htrunc]))
  | case3 packet rest t t' htrunc hnone ih =>
    exact ih (ht.examine (by simp [matching, bears, hnone]))
  | case4 packet rest t t' htrunc x hx e he =>
    exact ht.examine (by simp [matching, bears, hx, identifies_error he])
  | case5 packet rest t t' htrunc x hx hfalse ih =>
    exact ih (ht.examine (by simp [matching, bears, hx, identifies_ok hfalse]))
  | case6 packet rest t t' htrunc x hx htrue hfull =>
    have hfull : 64 ≤ t.found.length := hfull
    simp only [Tally.Counted, Tally.incomplete, t', List.countP_append] at ht ⊢
    omega
  | case7 packet rest t t' htrunc x hx htrue hfull ih =>
    refine ih ?_
    have hfull : ¬ 64 ≤ t.found.length := hfull
    have hmatch : matching observation packet = true := by
      simp [matching, bears, hx, htrunc, identifies_ok htrue]
    simp only [Tally.Counted, t', List.length_append, List.length_singleton, List.countP_append,
      List.countP_singleton, hmatch, if_true] at ht ⊢
    omega

theorem Tally.Counted.keep (ht : t.Counted observation) (condition : Bool) :
    (t.keep condition).Counted observation := by
  cases condition with
  | true => exact ht
  | false => exact ht

theorem scanSegment_counted {x : Reader} {disk : Disk} {c : Descriptor}
    (ht : t.Counted observation) :
    (scanSegment x disk observation c s t).1.Counted observation := by
  fun_cases scanSegment x disk observation c s t with
  | case8 sequence _ bytes _ _ decoded =>
    have hspent : (t.spend bytes.length).Counted observation := ht
    exact scanPackets_counted (hspent.keep _)
  | _ => exact ht

theorem scanSegments_counted {x : Reader} {disk : Disk} {c : Descriptor} {ss : List Json}
    (ht : t.Counted observation) :
    (scanSegments x disk observation c ss t).1.Counted observation := by
  induction ss generalizing t with
  | nil => exact ht
  | cons s rest ih =>
    have hcounted : { t with segments := t.segments + 1 }.Counted observation := ht
    have hone : (scanSegment x disk observation c s
        { t with segments := t.segments + 1 }).1.Counted observation :=
      scanSegment_counted hcounted
    rw [scanSegments]
    split
    · exact ht
    · split
      · rename_i heq
        rwa [heq] at hone
      · rename_i heq
        rw [heq] at hone
        exact ih hone

theorem scanCapture_counted {x : Reader} {disk : Disk} {run : Run} {c : Descriptor}
    (ht : t.Counted observation) :
    (scanCapture x disk run observation c t).1.Counted observation := by
  rw [scanCapture]
  split
  · exact ht
  · split
    · exact ht.keep _
    · exact scanSegments_counted (ht.keep _)

theorem caught_counted {r : Tally × Option String} (h : r.1.Counted observation) :
    (caught r).Counted observation := by
  match r, h with
  | (_, none), h => exact h
  | (_, some _), h => exact h

theorem scanCaptures_counted {x : Reader} {disk : Disk} {run : Run} {cs : List Descriptor}
    (ht : t.Counted observation) :
    (scanCaptures x disk run observation edge cs t).Counted observation := by
  induction cs generalizing t with
  | nil => exact ht
  | cons c rest ih =>
    rw [scanCaptures]
    split
    · exact ih ht
    · exact ih (caught_counted (scanCapture_counted ht))

end Counted

/-! ## A search that left nothing out -/

/-- The bytes of a segment and what they decode to. -/
structure Piece where
  bytes : Bytes
  decoded : Packets.Decoded

/-- The segment's file is what the manifest says, and it was decoded in full. -/
structure Verified (x : Reader) (disk : Disk) (c : Descriptor) (s : Json) (p : Piece) : Prop where
  file : ∃ sequence, s.find? "sequence" = some (.string sequence) ∧
    disk.file (segmentPath c sequence) = .content p.bytes
  size : s.find? "size" = some (.string (toString p.bytes.length))
  sha256 : s.find? "sha256" = some (.string (x.sha256 p.bytes))
  decoded : Packets.decode p.bytes { decodeMessageIdentifiers := true } 2000 = .ok p.decoded
  whole : p.decoded.omittedRecords = "0"
  count : p.decoded.packetCount = toString p.decoded.items.length
  untruncated : ∀ packet ∈ p.decoded.items, packet.truncated = false

/-- The manifest of a capture is the capture's own, and closed. -/
def Sealed (disk : Disk) (run : Run) (c : Descriptor) : Prop :=
  ∃ manifest segments, disk.manifest c.directory = some manifest ∧ c.runId = run.id.text ∧
    (∀ e ∈ identity c, manifest.find? e.1 = some e.2) ∧
    manifest.find? "state" = some (.string "closed") ∧
    manifest.find? "segments" = some segments

/-- The segments that the manifest of a capture lists. -/
def segmentsOf (disk : Disk) (c : Descriptor) : List Json :=
  ((disk.manifest c.directory).bind (·.find? "segments")).elim [] Json.elements

/-- What the search does to the tally when it reads these pieces and leaves nothing out. -/
structure Advance (t t' : Tally) (pieces : List Piece) : Prop where
  complete : t.complete = true
  examined : t'.examined = t.examined ++ pieces.flatMap (·.decoded.items)
  budget : t'.budget + (pieces.map (·.bytes.length)).sum = t.budget
  segments : t'.segments = t.segments + pieces.length
  bound : t.segments ≤ 16 → t'.segments ≤ 16

theorem Advance.refl {t : Tally} (h : t.complete = true) : Advance t t [] :=
  ⟨h, by simp, by simp, rfl, id⟩

theorem Advance.trans {t t' t'' : Tally} {ps qs : List Piece} (h : Advance t t' ps)
    (h' : Advance t' t'' qs) : Advance t t'' (ps ++ qs) where
  complete := h.complete
  examined := by rw [h'.examined, h.examined, List.flatMap_append, List.append_assoc]
  budget := by
    have := h.budget
    have := h'.budget
    rw [List.map_append, List.sum_append]
    omega
  segments := by rw [h'.segments, h.segments, List.length_append, Nat.add_assoc]
  bound hb := h'.bound (h.bound hb)

/-- Nothing was thrown, and the search is still complete. -/
def Went (r : Tally × Option String) : Prop := r.1.complete = true ∧ r.2 = none

theorem went_of_caught {r : Tally × Option String} (h : (caught r).complete = true) :
    Went r ∧ caught r = r.1 := by
  match r, h with
  | (_, none), h => exact ⟨⟨h, rfl⟩, rfl⟩

section Went

variable {x : Reader} {disk : Disk} {run : Run} {observation : Json} {c : Descriptor}

theorem scanPackets_went {entry : Packets.Row → Match} {rows : List Packets.Row} {t : Tally}
    (h : Went (scanPackets observation entry rows t)) :
    t.complete = true ∧ (∀ packet ∈ rows, packet.truncated = false) ∧
      (scanPackets observation entry rows t).1.examined = t.examined ++ rows ∧
      (scanPackets observation entry rows t).1.budget = t.budget ∧
      (scanPackets observation entry rows t).1.segments = t.segments := by
  fun_induction scanPackets observation entry rows t with
  | case1 t => exact ⟨h.1, by simp, by simp, rfl, rfl⟩
  | case2 packet rest t t' htrunc ih => exact absurd (ih h).1 Bool.false_ne_true
  | case3 packet rest t t' htrunc hnone ih =>
    obtain ⟨hc, hrest, hexamined, hbudget, hsegments⟩ := ih h
    exact ⟨hc, List.forall_mem_cons.mpr ⟨by simpa using htrunc, hrest⟩,
      by simp [hexamined, t'], hbudget, hsegments⟩
  | case4 packet rest t t' htrunc x hx e he => cases h.2
  | case5 packet rest t t' htrunc x hx hfalse ih =>
    obtain ⟨hc, hrest, hexamined, hbudget, hsegments⟩ := ih h
    exact ⟨hc, List.forall_mem_cons.mpr ⟨by simpa using htrunc, hrest⟩,
      by simp [hexamined, t'], hbudget, hsegments⟩
  | case6 packet rest t t' htrunc x hx htrue hfull => exact absurd h.1 Bool.false_ne_true
  | case7 packet rest t t' htrunc x hx htrue hfull ih =>
    obtain ⟨hc, hrest, hexamined, hbudget, hsegments⟩ := ih h
    exact ⟨hc, List.forall_mem_cons.mpr ⟨by simpa using htrunc, hrest⟩,
      by simp [hexamined, t'], hbudget, hsegments⟩

theorem sequenceOf_ok {sequence : String} (h : sequenceOf s = .ok sequence) :
    s.find? "sequence" = some (.string sequence) := by
  obtain ⟨_, hv, h⟩ := bind_eq_ok.mp h
  obtain ⟨_, hw, h⟩ := bind_eq_ok.mp h
  obtain ⟨-, -, h⟩ := bind_eq_ok.mp h
  cases h
  rw [Json.field_eq_ok.mp hv, Json.text_eq_ok.mp hw]

theorem contents_ok {bytes : Bytes} {decoded : Packets.Decoded}
    (h : contents x s bytes = .ok decoded) :
    s.find? "size" = some (.string (toString bytes.length)) ∧
      s.find? "sha256" = some (.string (x.sha256 bytes)) ∧
      Packets.decode bytes { decodeMessageIdentifiers := true } 2000 = .ok decoded := by
  simp only [contents, bind_eq_ok] at h
  obtain ⟨_, hv, sha256, hsha, _, hdigest, _, hw, size, hsize, _, hlength, h⟩ := h
  have hdigest : x.sha256 bytes = sha256 := by simpa using hdigest
  have hlength : toString bytes.length = size := of_decide_eq_true (check_eq_ok.mp hlength)
  refine ⟨?_, ?_, h⟩
  · rw [Json.field_eq_ok.mp hw, Json.text_eq_ok.mp hsize, hlength]
  · rw [Json.field_eq_ok.mp hv, Json.text_eq_ok.mp hsha, hdigest]

theorem keep_complete {t : Tally} {condition : Bool} (h : (t.keep condition).complete = true) :
    t.complete = true ∧ condition = true ∧ t.keep condition = t := by
  cases condition with
  | true => exact ⟨h, rfl, rfl⟩
  | false => cases h

theorem scanSegment_went {t : Tally} (h : Went (scanSegment x disk observation c s t)) :
    ∃ p, Verified x disk c s p ∧ t.complete = true ∧
      (scanSegment x disk observation c s t).1.examined = t.examined ++ p.decoded.items ∧
      (scanSegment x disk observation c s t).1.budget + p.bytes.length = t.budget ∧
      (scanSegment x disk observation c s t).1.segments = t.segments := by
  fun_cases scanSegment x disk observation c s t with
  | case8 sequence hsequence bytes hfile hbudget decoded hdecoded =>
    simp only [scanSegment, hsequence, hfile, hbudget, hdecoded, if_false] at h ⊢
    obtain ⟨hcomplete, huntruncated, hexamined, hleft, hsegments⟩ := scanPackets_went h
    obtain ⟨hcomplete, hwhole, hkeep⟩ := keep_complete hcomplete
    obtain ⟨hsize, hsha, hdecode⟩ := contents_ok hdecoded
    have hverified : Verified x disk c s ⟨bytes, decoded⟩ :=
      { file := ⟨sequence, sequenceOf_ok hsequence, hfile⟩
        size := hsize, sha256 := hsha, decoded := hdecode
        whole := beq_iff_eq.mp hwhole
        count := Packets.packetCount_of_decode hdecode (beq_iff_eq.mp hwhole)
        untruncated := huntruncated }
    refine ⟨⟨bytes, decoded⟩, hverified, hcomplete, ?_, ?_, ?_⟩
    · rw [hexamined, hkeep]
      rfl
    · rw [hleft, hkeep]
      simp only [Tally.spend]
      omega
    · rw [hsegments, hkeep]
      rfl
  | _ => simp_all [Went, scanSegment, Tally.passOver]

theorem scanSegments_went {ss : List Json} {t : Tally}
    (h : Went (scanSegments x disk observation c ss t)) :
    ∃ pieces, List.Forall₂ (Verified x disk c) ss pieces ∧
      Advance t (scanSegments x disk observation c ss t).1 pieces := by
  induction ss generalizing t with
  | nil => exact ⟨[], .nil, .refl h.1⟩
  | cons s rest ih =>
    rw [scanSegments] at h ⊢
    split at h
    · exact absurd h.1 Bool.false_ne_true
    · rename_i hfew
      rw [if_neg hfew]
      -- the segment itself, then what the rest of the manifest adds
      split at h
      · cases h.2
      · rename_i t' hone
        obtain ⟨pieces, hpieces, hrest⟩ := ih h
        have hwent : Went (scanSegment x disk observation c s
            { t with segments := t.segments + 1 }) := by
          rw [hone]
          exact ⟨hrest.complete, rfl⟩
        obtain ⟨p, hp, hcomplete, hexamined, hbudget, hsegments⟩ := scanSegment_went hwent
        rw [hone] at hexamined hbudget hsegments
        have hstep : Advance t t' [p] :=
          { complete := hcomplete
            examined := by simpa using hexamined
            budget := by simpa using hbudget
            segments := hsegments
            bound := fun _ => by
              have : t'.segments = t.segments + 1 := hsegments
              omega }
        exact ⟨p :: pieces, .cons hp hpieces, hstep.trans hrest⟩

theorem identify_ok {manifest : Json} {l : List (String × Json)} (h : identify manifest l = .ok ()) :
    ∀ e ∈ l, manifest.find? e.1 = some e.2 := by
  induction l with
  | nil => simp
  | cons e rest ih =>
    obtain ⟨own, hown, h⟩ := bind_eq_ok.mp h
    obtain ⟨_, hsame, h⟩ := bind_eq_ok.mp h
    have hsame : own = e.2 := by simpa using hsame
    refine List.forall_mem_cons.mpr ⟨?_, ih h⟩
    rw [Json.field_eq_ok.mp hown, hsame]

theorem openCapture_ok {manifest : Json} {state : String}
    (h : openCapture x disk run c = .ok (manifest, state)) :
    disk.manifest c.directory = some manifest ∧ c.runId = run.id.text ∧
      (∀ e ∈ identity c, manifest.find? e.1 = some e.2) ∧ value manifest "state" = .ok state := by
  simp only [openCapture, bind_eq_ok] at h
  obtain ⟨_, hload, _, hrun, _, hidentity, _, hstate, h⟩ := h
  cases h
  rw [load] at hload
  split at hload
  · rename_i hmanifest
    cases hload
    exact ⟨hmanifest, by simpa using hrun, identify_ok hidentity, hstate⟩
  · cases hload

theorem scanCapture_went {t : Tally} (h : Went (scanCapture x disk run observation c t)) :
    Sealed disk run c ∧ ∃ pieces, List.Forall₂ (Verified x disk c) (segmentsOf disk c) pieces ∧
      Advance t (scanCapture x disk run observation c t).1 pieces := by
  rw [scanCapture] at h ⊢
  split at h
  · cases h.2
  · rename_i manifest state hopen
    obtain ⟨hmanifest, hrun, hidentity, hstate⟩ := openCapture_ok hopen
    split at h
    · cases h.2
    · rename_i segments hsegments
      obtain ⟨pieces, _, hadvance⟩ := scanSegments_went h
      obtain ⟨-, hclosed, hkeep⟩ := keep_complete hadvance.complete
      rw [hkeep] at hadvance
      have hsegments := Json.field_eq_ok.mp hsegments
      have hlisted : segmentsOf disk c = segments.elements := by
        simp [segmentsOf, hmanifest, hsegments]
      have hstate : manifest.find? "state" = some (.string "closed") := by
        rw [beq_iff_eq.mp hclosed, value] at hstate
        split at hstate
        · simp at hstate
        · rename_i heq
          cases hstate
          exact heq
        · cases hstate
      refine ⟨⟨manifest, segments, hmanifest, hrun, hidentity, hstate, hsegments⟩, pieces, ?_, ?_⟩
      · rwa [hlisted]
      · rwa [hkeep]

/-- A search with this edge is about the capture. -/
def inScope (edge : String) (c : Descriptor) : Bool := edge = "" || c.edge = edge

theorem inScope_eq (edge : String) (c : Descriptor) :
    inScope edge c = !(edge ≠ "" && c.edge ≠ edge) := by
  simp [inScope]

/-- The captures that a search is about. -/
def scopeOf (run : Run) (edge : String) : List Descriptor := run.captures.filter (inScope edge)

/-- The segments that the manifests of some captures list. -/
def listed (disk : Disk) (cs : List Descriptor) : List (Descriptor × Json) :=
  cs.flatMap fun c => (segmentsOf disk c).map (c, ·)

theorem scanCaptures_went {cs : List Descriptor} {t : Tally}
    (h : (scanCaptures x disk run observation edge cs t).complete = true) :
    (∀ c ∈ cs.filter (inScope edge), Sealed disk run c) ∧
      ∃ pieces, List.Forall₂ (fun e p => Verified x disk e.1 e.2 p)
          (listed disk (cs.filter (inScope edge))) pieces ∧
        Advance t (scanCaptures x disk run observation edge cs t) pieces := by
  induction cs generalizing t with
  | nil => exact ⟨by simp, [], .nil, .refl h⟩
  | cons c rest ih =>
    have hscope := inScope_eq edge c
    rw [scanCaptures] at h ⊢
    split at h
    · rename_i hother
      rw [hother] at hscope
      rw [if_pos hother, List.filter_cons_of_neg (by rw [hscope]; exact Bool.false_ne_true)]
      exact ih h
    · rename_i hin
      rw [Bool.not_eq_true] at hin
      rw [hin] at hscope
      obtain ⟨hsealed, pieces, hpieces, hrest⟩ := ih h
      obtain ⟨hwent, hcaught⟩ := went_of_caught hrest.complete
      obtain ⟨hc, own, hown, hadvance⟩ := scanCapture_went hwent
      rw [hin, if_neg Bool.false_ne_true, List.filter_cons_of_pos hscope]
      refine ⟨List.forall_mem_cons.mpr ⟨hc, hsealed⟩, own ++ pieces, ?_, ?_⟩
      · have hfirst : List.Forall₂ (fun e p => Verified x disk e.1 e.2 p)
            ((segmentsOf disk c).map (c, ·)) own := List.forall₂_map_left_iff.mpr hown
        exact List.rel_append hfirst hpieces
      · rw [hcaught] at hrest ⊢
        exact hadvance.trans hrest

end Went

/-! ## The answer is sound -/

theorem verdict_exact {run : Run} {t : Tally} (h : verdict run t = .exact) :
    t.found.length = 1 ∧ t.complete = true ∧ gaps run = false := by
  rw [verdict] at h
  split at h
  · cases h
  · split at h
    · rename_i hall
      simpa [and_assoc] using hall
    · cases h

/-- An exact verdict, with what was read and what was examined. -/
theorem search_of_exact {x : Reader} {disk : Disk} {run : Run} {event : Row}
    (h : verdict run (search x disk run event edge) = .exact) :
    (∀ c ∈ scopeOf run edge, Sealed disk run c) ∧
      ∃ pieces, List.Forall₂ (fun e p => Verified x disk e.1 e.2 p)
          (listed disk (scopeOf run edge)) pieces ∧
        Advance {} (search x disk run event edge) pieces ∧
        (pieces.flatMap (·.decoded.items)).countP (bears event.body.observation) = 1 := by
  obtain ⟨hone, hcomplete, -⟩ := verdict_exact h
  obtain ⟨hsealed, pieces, hpieces, hadvance⟩ := scanCaptures_went hcomplete
  refine ⟨hsealed, pieces, hpieces, hadvance, ?_⟩
  have hcounted : (search x disk run event edge).Counted event.body.observation :=
    scanCaptures_counted rfl
  have hexamined : (search x disk run event edge).examined =
      pieces.flatMap (·.decoded.items) := hadvance.examined
  rw [Tally.Counted, hone, hexamined] at hcounted
  -- no packet is truncated, so those that bear the identifier are those that match
  have hsame : (pieces.flatMap (·.decoded.items)).countP (matching event.body.observation) =
      (pieces.flatMap (·.decoded.items)).countP (bears event.body.observation) := by
    refine List.countP_congr fun packet hpacket => ?_
    obtain ⟨_, hp, hpacket⟩ := List.mem_flatMap.mp hpacket
    obtain ⟨_, hi, rfl⟩ := List.getElem_of_mem hp
    have hverified := hpieces.get (hpieces.length_eq ▸ hi) hi
    simp [matching, hverified.untruncated packet hpacket]
  omega

/-- **An exact answer is a complete one.**  If the status is `exact`, every capture in scope
has its own manifest, closed; all segments they list were read within the bounds, with the
size and the digest of the manifest, and no packet was omitted or truncated; the coverage of
the run names no gap; and one packet of them all decodes to the identifier of the event.
With two packets that match the status is `ambiguous`. -/
theorem correlate_sound (x : Reader) (disk : Disk) (run : Run) (event : Row) (edge : String)
    {answer : Correlation} (h : correlate x disk run event edge = .ok answer) :
    (answer.status = .exact →
      (∀ c ∈ scopeOf run edge, Sealed disk run c) ∧
      (∃ pieces, List.Forall₂ (fun e p => Verified x disk e.1 e.2 p)
          (listed disk (scopeOf run edge)) pieces ∧
        pieces.length ≤ 16 ∧ (pieces.map (·.bytes.length)).sum ≤ 16 * 1024 * 1024 ∧
        (pieces.flatMap (·.decoded.items)).countP (bears event.body.observation) = 1) ∧
      ¬ Mentions (run.captureCoverage.getD "") "incomplete" ∧
      ¬ Mentions (run.captureCoverage.getD "") "interrupted") ∧
    (2 ≤ (search x disk run event edge).examined.countP (matching event.body.observation) →
      answer.status = .ambiguous) ∧
    (2 ≤ (search x disk run event edge).examined.countP (bears event.body.observation) →
      answer.status ≠ .exact) := by
  obtain ⟨_, _, h⟩ := bind_eq_ok.mp h
  obtain ⟨_, _, h⟩ := bind_eq_ok.mp h
  obtain ⟨_, _, h⟩ := bind_eq_ok.mp h
  cases h
  refine ⟨fun hexact => ?_, fun htwo => ?_, fun htwo hexact => ?_⟩
  · obtain ⟨hsealed, pieces, hpieces, hadvance, hone⟩ := search_of_exact hexact
    obtain ⟨-, -, hgaps⟩ := verdict_exact hexact
    have hlength : pieces.length ≤ 16 := by
      have := hadvance.bound (Nat.zero_le _)
      rw [hadvance.segments] at this
      omega
    have hbytes : (pieces.map (·.bytes.length)).sum ≤ 16 * 1024 * 1024 :=
      Nat.le.intro ((Nat.add_comm _ _).trans hadvance.budget)
    exact ⟨hsealed, ⟨pieces, hpieces, hlength, hbytes, hone⟩, by simpa [gaps] using hgaps⟩
  · have hcounted : (search x disk run event edge).Counted event.body.observation :=
      scanCaptures_counted rfl
    have hfound : 2 ≤ (search x disk run event edge).found.length := by
      rw [hcounted]
      omega
    have hne : (search x disk run event edge).found ≠ [] := by
      rintro hnil
      simp [hnil] at hfound
    have hmany : (search x disk run event edge).found.length ≠ 1 := by omega
    simp [verdict, hne, hmany]
  · obtain ⟨-, pieces, -, hadvance, hone⟩ := search_of_exact hexact
    have hexamined : (search x disk run event edge).examined =
        pieces.flatMap (·.decoded.items) := hadvance.examined
    rw [hexamined, hone] at htwo
    omega

namespace Evidence

/-- A request of the stream alpha. -/
def wire : Bytes := magic ++ List.replicate 48 97 ++ [65]

/-- The request as an Ethernet frame: IPv4 and UDP, from port 1 to port 2. -/
def ethernet : Bytes :=
  List.replicate 12 0 ++ [8, 0] ++
    [69, 0, 0, 81, 0, 0, 0, 0, 64, 17, 0, 0, 10, 0, 0, 1, 10, 0, 0, 2] ++
    [0, 1, 0, 2, 0, 61, 0, 0] ++ wire

/-- A segment with this frame. -/
def segment : Bytes :=
  Capture.frame 0x0a0d0d0a Capture.sectionBody ++
    Capture.frame 1 (Capture.u16 1 ++ Capture.u16 0 ++ Capture.u32 65535) ++
    Capture.frame 6 (Capture.packetBody 7 ethernet ethernet.length)

def reader : Reader where
  sha256 _ := "sha256:00"
  refusal path := "document_open: " ++ path

def capture : Descriptor where
  id := ⟨"c", by decide⟩
  runId := "r"
  edge := "e"
  epoch := "1"
  mapping := .null
  bootId := "b"
  directory := "d"
  interface := "eth0"
  canonicalEndpoint := "a:0"

def run : Run where
  id := ⟨"r", by decide⟩
  captures := [capture]
  captureCoverage := some "closed"

def manifest : Json :=
  .object [("bootId", .string "b"), ("edge", .string "e"), ("epoch", .string "1"),
    ("id", .string "c"), ("mapping", .null), ("runId", .string "r"),
    ("segments", .array [.object [("sequence", .string "0"), ("sha256", .string "sha256:00"),
      ("size", .string (toString segment.length))]]),
    ("state", .string "closed")]

def disk : Disk where
  manifest d := if d = "d" then some manifest else none
  file path := if path = "d/0.pcapng" then .content segment else .absent

def event : Row where
  id := 1
  k := "k"
  seq := 1
  stream := "alpha"
  created := 0
  body :=
    { runId := "r", node := "n", workloadInstance := "i", reporterEpoch := "", clock := .null
      observation := .object [("messageId", .string (text (List.replicate 48 97))),
        ("phase", .string "request"), ("stream", .string "alpha")]
      observedAt := "", collectorEpoch := "" }

end Evidence

theorem correlate_sound_found :
    ∃ answer, correlate Evidence.reader Evidence.disk Evidence.run Evidence.event "" = .ok answer ∧
      answer.status = .exact ∧ Sealed Evidence.disk Evidence.run Evidence.capture ∧
      ¬ Mentions (Evidence.run.captureCoverage.getD "") "incomplete" := by
  have hexact : (answerOf Evidence.run Evidence.event ""
      (search Evidence.reader Evidence.disk Evidence.run Evidence.event "")).status = .exact := by
    rw [status_answerOf]
    decide +kernel
  have hanswer : correlate Evidence.reader Evidence.disk Evidence.run Evidence.event "" =
      .ok (answerOf Evidence.run Evidence.event ""
        (search Evidence.reader Evidence.disk Evidence.run Evidence.event "")) := by
    rw [correlate, check_bind (by decide), check_bind (by decide), check_bind (by decide)]
    rfl
  obtain ⟨hsealed, -, hcoverage, -⟩ :=
    (correlate_sound Evidence.reader Evidence.disk Evidence.run Evidence.event "" hanswer).1 hexact
  exact ⟨_, hanswer, hexact, hsealed _ (by decide), hcoverage⟩

end Graphlab.Messages
