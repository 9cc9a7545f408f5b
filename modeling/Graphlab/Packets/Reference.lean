import Graphlab.Packets.Protocol

/-!
# A reference parse of a frame

The reference takes a frame apart by slices, each layer from the one around it: the packet behind
the Ethernet header and its tags, the segment behind the IP header within the length that the IP
header declares, the transport header within the segment.  `protocol` walks over the frame with
positions instead.  No read of it lies outside the frame, and it reports the ports of the transport
header exactly if the reference finds one.

## Main definitions

* `reference` — the segment of a frame; `untagged`, `segment4`, `segment6` its layers.
* `Reports` — headers with the ports and the identifier of a segment.

## Main results

* `protocol_isSome` — every read of `protocol` lies in the frame.
* `protocol_reports` — ports and fixture identifiers.
-/

namespace Graphlab.Packets

open Lib

/-! ## The reference -/

/-- The byte at a position of the string. -/
def octet (b : Bytes) (n : ℕ) : ℕ := (b.getD n 0).toNat

/-- The number in the two bytes at a position, the high one first. -/
def word (b : Bytes) (n : ℕ) : ℕ := octet b n * 256 + octet b (n + 1)

/-- From a type on, behind at most `n` tags. -/
def untagged : ℕ → Bytes → Bytes
  | 0, b => b
  | n + 1, b => if word b 0 = 0x8100 ∨ word b 0 = 0x88a8 then untagged n (b.drop 4) else b

/-- The next protocol and the segment of an IPv4 packet that is no fragment, with its header
captured.  The segment is what the declared length has behind the header. -/
def segment4 (packet : Bytes) : Option (ℕ × Bytes) :=
  let header := octet packet 0 % 16 * 4
  if octet packet 0 / 16 = 4 ∧ 20 ≤ header ∧ header ≤ packet.length ∧ header ≤ word packet 2 ∧
      word packet 6 % 0x4000 = 0 then
    some (octet packet 9, (packet.take (word packet 2)).drop header)
  else none

/-- The same of an IPv6 packet without one of the extension headers. -/
def segment6 (packet : Bytes) : Option (ℕ × Bytes) :=
  if 40 ≤ packet.length ∧ octet packet 0 / 16 = 6 ∧
      octet packet 6 ∉ [0, 43, 44, 50, 51, 60] then
    some (octet packet 6, (packet.take (40 + word packet 4)).drop 40)
  else none

/-- What a frame carries: the type of its packet, the next protocol and the bytes. -/
structure Segment where
  type : ℕ
  next : ℕ
  bytes : Bytes

/-- The segment of a packet. -/
def segmentOf (type : ℕ) (packet : Bytes) : Option Segment :=
  if type = 0x0800 then (segment4 packet).map fun x => ⟨type, x.1, x.2⟩
  else if type = 0x86dd then (segment6 packet).map fun x => ⟨type, x.1, x.2⟩
  else none

/-- The segment of a frame. -/
def reference (frame : Bytes) : Option Segment :=
  let b := untagged 2 (frame.drop 12)
  if b.length < 2 then none else segmentOf (word b 0) (b.drop 2)

/-- A segment with a whole TCP or UDP header. -/
def Segment.Whole (x : Segment) : Prop :=
  x.next = 6 ∧ 20 ≤ x.bytes.length ∧ 5 ≤ octet x.bytes 12 / 16 ∧
    octet x.bytes 12 / 16 * 4 ≤ x.bytes.length ∨
  x.next = 17 ∧ 8 ≤ x.bytes.length ∧ 8 ≤ word x.bytes 4

/-- An IPv4 segment with a fixture message. -/
def Segment.Fixture (x : Segment) (id : Messages.Identifier) : Prop :=
  x.type = 0x0800 ∧ x.next = 17 ∧ word x.bytes 4 = 61 ∧ 61 ≤ x.bytes.length ∧
    Messages.Glm1 ((x.bytes.drop 8).take 53) id

/-! ## Reads at positions -/

variable {b : Bytes} {n pos stop : ℕ}

theorem byte_eq (h : n < b.length) : byte b n = some (octet b n) := by
  simp [byte, octet, h]

theorem be_eq (h : n + 2 ≤ b.length) : be b n = some (word b n) := by
  simp [be, word, byte_eq (show n < b.length by omega), byte_eq (show n + 1 < b.length by omega)]

theorem octet_drop (b : Bytes) (pos n : ℕ) : octet (b.drop pos) n = octet b (pos + n) := by
  simp [octet, List.getD_eq_getElem?_getD]

theorem word_drop (b : Bytes) (pos n : ℕ) : word (b.drop pos) n = word b (pos + n) := by
  rw [word, word, octet_drop, octet_drop, Nat.add_assoc]

/-- What lies between two positions. -/
def between (b : Bytes) (pos stop : ℕ) : Bytes := (b.take stop).drop pos

theorem length_between (pos : ℕ) (hstop : stop ≤ b.length) :
    (between b pos stop).length = stop - pos := by
  rw [between, List.length_drop, List.length_take, min_eq_left hstop]

theorem octet_between (h : pos + n < stop) : octet (between b pos stop) n = octet b (pos + n) := by
  rw [between, octet_drop]
  simp [octet, List.getD_eq_getElem?_getD, List.getElem?_take_of_lt h]

theorem word_between (h : pos + n + 2 ≤ stop) : word (between b pos stop) n = word b (pos + n) := by
  rw [word, octet_between (by omega), octet_between (by omega), word, Nat.add_assoc]

/-- What the declared length of a packet has behind its header. -/
theorem between_packet (b : Bytes) (pos k n : ℕ) :
    between b (pos + k) (min b.length (pos + n)) = ((b.drop pos).take n).drop k := by
  rw [between, min_comm, ← List.take_eq_take_min, ← List.drop_drop, List.drop_take,
    Nat.add_sub_cancel_left]

/-! ## What headers report -/

/-- Headers of a frame that carries `r`. -/
structure Reports (q : Headers) (messages : Bool) (r : Option Segment) : Prop where
  ports : ∀ s d, q.sourcePort = some s ∧ q.destinationPort = some d ↔
    ∃ x ∈ r, x.Whole ∧ word x.bytes 0 = s ∧ word x.bytes 2 = d
  both : q.sourcePort.isSome = q.destinationPort.isSome
  fixture : ∀ id, q.fixtureIdentifier = some id ↔ messages = true ∧ ∃ x ∈ r, x.Fixture id

/-- There are no ports so far. -/
structure Portless (p : Headers) : Prop where
  source : p.sourcePort = none
  destination : p.destinationPort = none
  fixture : p.fixtureIdentifier = none

variable {p q : Headers} {messages : Bool} {r : Option Segment} {x : Segment} {type next : ℕ}

theorem Segment.Fixture.whole {id : Messages.Identifier} (h : x.Fixture id) : x.Whole := by
  obtain ⟨-, hnext, _, _, -⟩ := h
  exact .inr ⟨hnext, by omega, by omega⟩

theorem Portless.reports (hq : Portless q) (h : ∀ x ∈ r, ¬x.Whole) : Reports q messages r where
  ports s d := by
    refine iff_of_false (by simp [hq.source]) ?_
    rintro ⟨x, hx, hwhole, -⟩
    exact h x hx hwhole
  both := by rw [hq.source, hq.destination]
  fixture id := by
    refine iff_of_false (by simp [hq.fixture]) ?_
    rintro ⟨-, x, hx, hfixture⟩
    exact h x hx hfixture.whole

theorem Portless.none (hq : Portless q) : Reports q messages none := hq.reports (by simp)

theorem Portless.some (hq : Portless q) (h : ¬x.Whole) : Reports q messages (some x) :=
  hq.reports (by simpa using h)

/-! ## Transport headers -/

/-- The ports that TCP and UDP have in the same place. -/
theorem ports_eq (h : pos + 4 ≤ stop) (hstop : stop ≤ b.length) :
    ports b pos p = some { p with
      sourcePort := some (word (between b pos stop) 0)
      destinationPort := some (word (between b pos stop) 2) } := by
  rw [word_between (by omega), word_between (by omega)]
  simp [ports, be_eq (show pos + 2 ≤ b.length by omega),
    be_eq (show pos + 2 + 2 ≤ b.length by omega)]

/-- The payload of a whole fixture message. -/
theorem payload_between (h : pos + 61 ≤ stop) (hstop : stop ≤ b.length) :
    slice b (pos + 8) 53 = some (((between b pos stop).drop 8).take 53) := by
  rw [slice, if_pos (by omega), between, List.drop_drop, List.drop_take, List.take_take,
    min_eq_left (by omega)]

theorem tcp_reports (hp : Portless p) (hstop : stop ≤ b.length) (type : ℕ) :
    ∃ q, tcp b pos stop p = some q ∧
      Reports q messages (some ⟨type, 6, between b pos stop⟩) := by
  have hlength := length_between pos hstop
  have hp' : ∀ status, Portless { p with protocol := .tcp, decodeStatus := status } :=
    fun _ => ⟨hp.source, hp.destination, hp.fixture⟩
  unfold tcp
  dsimp only
  by_cases hfixed : stop < pos + 20
  · rw [if_pos hfixed]
    exact ⟨_, rfl, (hp' _).some (by simp only [Segment.Whole]; omega)⟩
  have hoctet : octet (between b pos stop) 12 = octet b (pos + 12) := octet_between (by omega)
  rw [if_neg hfixed, byte_eq (by omega), ← hoctet]
  simp only [bind, Option.bind_some]
  by_cases hleast : octet (between b pos stop) 12 / 16 < 5
  · rw [if_pos hleast]
    exact ⟨_, rfl, (hp' _).some (by simp only [Segment.Whole]; omega)⟩
  rw [if_neg hleast]
  by_cases hwhole : stop < pos + octet (between b pos stop) 12 / 16 * 4
  · rw [if_pos hwhole]
    exact ⟨_, rfl, (hp' _).some (by simp only [Segment.Whole]; omega)⟩
  rw [if_neg hwhole, ports_eq (by omega) hstop]
  have htcp : Segment.Whole ⟨type, 6, between b pos stop⟩ := by
    simp only [Segment.Whole, true_and]
    omega
  refine ⟨_, rfl, ⟨fun s d => by simp [htcp], by simp, fun id => ?_⟩⟩
  simp [hp.fixture, Segment.Fixture]

theorem udp_reports (hp : Portless p) (hstop : stop ≤ b.length) (type : ℕ) :
    ∃ q, udp b messages type pos stop p = some q ∧
      Reports q messages (some ⟨type, 17, between b pos stop⟩) := by
  have hlength := length_between pos hstop
  have hp' : ∀ status, Portless { p with protocol := .udp, decodeStatus := status } :=
    fun _ => ⟨hp.source, hp.destination, hp.fixture⟩
  unfold udp
  dsimp only
  by_cases hfixed : stop < pos + 8
  · rw [if_pos hfixed]
    exact ⟨_, rfl, (hp' _).some (by simp only [Segment.Whole]; omega)⟩
  have hword : word (between b pos stop) 4 = word b (pos + 4) := word_between (by omega)
  rw [if_neg hfixed, be_eq (by omega), ← hword]
  simp only [bind, Option.bind_some]
  by_cases hleast : word (between b pos stop) 4 < 8
  · rw [if_pos hleast]
    exact ⟨_, rfl, (hp' _).some (by simp only [Segment.Whole]; omega)⟩
  rw [if_neg hleast, ports_eq (by omega) hstop]
  have hudp : Segment.Whole ⟨type, 17, between b pos stop⟩ := by
    simp only [Segment.Whole, true_and]
    omega
  simp only [Option.bind_some]
  split
  · next hfixture =>
      simp only [Bool.and_eq_true, beq_iff_eq, decide_eq_true_eq] at hfixture
      obtain ⟨⟨⟨hmessages, htype⟩, hdeclared⟩, hwhole⟩ := hfixture
      simp only [payload_between hwhole hstop, Option.bind_some]
      refine ⟨_, rfl, ⟨fun s d => by simp [hudp], by simp, fun id => ?_⟩⟩
      have hpresent : 61 ≤ (between b pos stop).length := by omega
      simp [Messages.identifier_eq_some, Segment.Fixture, hmessages, htype, hdeclared, hpresent]
  · next hfixture =>
      refine ⟨_, rfl, ⟨fun s d => by simp [hudp], by simp, fun id => ?_⟩⟩
      refine iff_of_false (by simp [hp.fixture]) ?_
      rintro ⟨hmessages, _, ⟨⟩, htype, -, hdeclared, hwhole, -⟩
      dsimp only at htype hdeclared hwhole
      exact hfixture (by simp [hmessages, htype, hdeclared]; omega)

theorem transport_reports (hp : Portless p) (hstop : stop ≤ b.length) (type next : ℕ)
    (fragment : Bool) :
    ∃ q, transport b messages type next fragment pos stop p = some q ∧ Reports q messages
      (if fragment then none else some ⟨type, next, between b pos stop⟩) := by
  have hp' : ∀ protocol status, Portless { p with
      protocol := protocol, decodeStatus := status
      ipProtocol := some next, fragmented := some fragment } :=
    fun _ _ => ⟨hp.source, hp.destination, hp.fixture⟩
  unfold transport
  dsimp only
  cases fragment with
  | true => exact ⟨_, rfl, (hp' _ _).none⟩
  | false =>
    simp only [Bool.false_eq_true, if_false, beq_iff_eq]
    by_cases h6 : next = 6
    · subst h6
      exact tcp_reports (hp' _ _) hstop type
    by_cases h17 : next = 17
    · subst h17
      exact udp_reports (hp' _ _) hstop type
    have hother : ¬Segment.Whole ⟨type, next, between b pos stop⟩ := by
      simp [Segment.Whole, h6, h17]
    rw [if_neg h6, if_neg h17]
    split
    · exact ⟨_, rfl, (hp' _ _).some hother⟩
    split
    · exact ⟨_, rfl, (hp' _ _).some hother⟩
    · exact ⟨_, rfl, (hp' _ _).some hother⟩

/-! ## Network headers -/

theorem ipv4_reports (hp : Portless p) : ∃ q, ipv4 b messages pos p = some q ∧
    Reports q messages (segmentOf 0x0800 (b.drop pos)) := by
  have hlength : (b.drop pos).length = b.length - pos := List.length_drop
  have hfirst : octet (b.drop pos) 0 = octet b pos := octet_drop b pos 0
  have hdeclared : word (b.drop pos) 2 = word b (pos + 2) := word_drop b pos 2
  have hp' : ∀ status source destination, Portless { p with
      protocol := .ipv4, decodeStatus := status
      sourceAddress := source, destinationAddress := destination } :=
    fun _ _ _ => ⟨hp.source, hp.destination, hp.fixture⟩
  rw [segmentOf, if_pos rfl, segment4]
  unfold ipv4
  dsimp only
  by_cases hfixed : b.length < pos + 20
  · rw [if_pos hfixed, if_neg (by omega)]
    exact ⟨_, rfl, (hp' _ _ _).none⟩
  rw [if_neg hfixed, byte_eq (by omega), be_eq (by omega)]
  simp only [bind, Option.bind_some]
  by_cases hform : (octet b pos / 16 != 4 || decide (octet b pos % 16 * 4 < 20) ||
      decide (word b (pos + 2) < octet b pos % 16 * 4)) = true
  · rw [if_pos hform]
    simp only [Bool.or_eq_true, bne_iff_ne, decide_eq_true_eq] at hform
    rw [if_neg (by omega)]
    exact ⟨_, rfl, (hp' _ _ _).none⟩
  rw [if_neg hform]
  simp only [Bool.or_eq_true, bne_iff_ne, decide_eq_true_eq, not_or, not_lt, not_not] at hform
  by_cases hcaptured : b.length < pos + octet b pos % 16 * 4
  · rw [if_pos hcaptured, if_neg (by omega)]
    exact ⟨_, rfl, (hp' _ _ _).none⟩
  rw [if_neg hcaptured, slice, if_pos (by omega), slice, if_pos (by omega), byte_eq (by omega),
    be_eq (by omega)]
  simp only [Option.bind_some]
  obtain ⟨q, hq, hreports⟩ := transport_reports (hp' _ _ _) (min_le_left b.length _) 0x0800
    (octet b (pos + 9)) (word b (pos + 6) % 0x4000 != 0)
  refine ⟨q, hq, ?_⟩
  rw [between_packet] at hreports
  convert hreports using 1
  rw [octet_drop b pos 9, word_drop b pos 6, hdeclared, hfirst]
  by_cases hfragment : word b (pos + 6) % 0x4000 = 0
  · rw [if_pos (by omega)]
    simp [hfragment]
  · rw [if_neg (by omega)]
    simp [hfragment]

theorem ipv6_reports (hp : Portless p) : ∃ q, ipv6 b messages pos p = some q ∧
    Reports q messages (segmentOf 0x86dd (b.drop pos)) := by
  have hlength : (b.drop pos).length = b.length - pos := List.length_drop
  have hp' : ∀ status source destination next, Portless { p with
      protocol := .ipv6, decodeStatus := status
      sourceAddress := source, destinationAddress := destination, ipProtocol := next } :=
    fun _ _ _ _ => ⟨hp.source, hp.destination, hp.fixture⟩
  rw [segmentOf, if_neg (by decide), if_pos rfl, segment6, octet_drop, octet_drop, word_drop]
  unfold ipv6
  dsimp only
  by_cases hfixed : b.length < pos + 40
  · rw [if_pos hfixed, if_neg (by omega)]
    exact ⟨_, rfl, (hp' _ _ _ _).none⟩
  rw [if_neg hfixed, byte_eq (by omega)]
  simp only [bind, Option.bind_some, bne_iff_ne]
  by_cases hversion : octet b pos / 16 = 6
  · rw [if_neg (not_not.mpr hversion), slice, if_pos (by omega), slice, if_pos (by omega),
      byte_eq (by omega), be_eq (by omega)]
    simp only [Option.bind_some]
    by_cases hextension : octet b (pos + 6) ∈ [0, 43, 44, 50, 51, 60]
    · rw [if_pos (by simpa [or_assoc] using hextension), if_neg fun h => h.2.2 hextension]
      exact ⟨_, rfl, (hp' _ _ _ _).none⟩
    rw [if_neg (by simpa [and_assoc] using hextension),
      if_pos ⟨by omega, hversion, hextension⟩, ← between_packet, ← Nat.add_assoc]
    exact transport_reports (hp' _ _ _ _) (min_le_left b.length _) 0x86dd _ false
  · rw [if_pos hversion, if_neg fun h => hversion h.2.1]
    exact ⟨_, rfl, (hp' _ _ _ _).none⟩

/-! ## The frame -/

theorem length_untagged_le (n : ℕ) (b : Bytes) : (untagged n b).length ≤ b.length := by
  induction n generalizing b with
  | zero => exact le_rfl
  | succ n ih =>
    rw [untagged]
    split
    · exact (ih _).trans (by simp)
    · exact le_rfl

/-- The loop over the tags finds what is behind them. -/
theorem tags_eq (n : ℕ) (hpos : pos + 2 ≤ b.length) :
    tags b n (word b pos) (pos + 2) = some none ∧ (untagged n (b.drop pos)).length < 2 ∨
    ∃ pos', tags b n (word b pos) (pos + 2) = some (some (word b pos', pos' + 2)) ∧
      pos' + 2 ≤ b.length ∧ untagged n (b.drop pos) = b.drop pos' := by
  induction n generalizing pos with
  | zero => exact .inr ⟨pos, rfl, hpos, rfl⟩
  | succ n ih =>
    rw [untagged, tags, List.drop_drop]
    simp only [word_drop, Nat.add_zero, Bool.or_eq_true, beq_iff_eq]
    split
    · by_cases hlong : b.length < pos + 2 + 4
      · -- the frame ends in the tag
        have hle := length_untagged_le n (b.drop (pos + 4))
        rw [List.length_drop] at hle
        rw [if_pos hlong]
        exact .inl ⟨rfl, by omega⟩
      · rw [if_neg hlong, be_eq (by omega)]
        exact ih (show pos + 4 + 2 ≤ b.length by omega)
    · exact .inr ⟨pos, rfl, hpos, rfl⟩

/-- `protocol` follows the reference. -/
theorem exists_reports (b : Bytes) (messages : Bool) :
    ∃ h, protocol b messages = some h ∧ Reports h messages (reference b) := by
  have hportless : ∀ protocol status type, Portless {
      protocol := protocol, decodeStatus := status, etherType := type } :=
    fun _ _ _ => ⟨rfl, rfl, rfl⟩
  unfold protocol reference
  dsimp only
  by_cases hshort : b.length < 14
  · have hle := length_untagged_le 2 (b.drop 12)
    rw [List.length_drop] at hle
    rw [if_pos hshort, if_pos (by omega)]
    exact ⟨_, rfl, (hportless _ _ _).none⟩
  rw [if_neg hshort, be_eq (by omega)]
  simp only [bind, Option.bind_some]
  rcases tags_eq 2 (show 12 + 2 ≤ b.length by omega) with ⟨htags, hend⟩ | ⟨pos, htags, hpos, hb⟩
  · rw [htags, if_pos hend]
    exact ⟨_, rfl, (hportless _ _ _).none⟩
  rw [htags, hb, if_neg (by rw [List.length_drop]; omega), word_drop, List.drop_drop]
  simp only [Option.bind_some, Nat.add_zero, beq_iff_eq]
  by_cases h4 : word b pos = 0x0800
  · rw [h4]
    exact ipv4_reports (hportless _ _ _)
  by_cases h6 : word b pos = 0x86dd
  · rw [h6]
    exact ipv6_reports (hportless _ _ _)
  rw [if_neg h4, if_neg h6, segmentOf, if_neg h4, if_neg h6]
  split
  · exact ⟨_, rfl, (hportless _ _ _).none⟩
  · exact ⟨_, rfl, (hportless _ _ _).none⟩

/-- **Every read of `protocol` lies in the frame.** -/
theorem protocol_isSome (b : Bytes) (messages : Bool) : ∃ x, protocol b messages = some x :=
  (exists_reports b messages).imp fun _ h => h.1

/-- **The ports and the fixture identifier of a frame are those of the reference parse.** -/
theorem protocol_reports (b : Bytes) (messages : Bool) :
    ∃ h, protocol b messages = some h ∧
      (∀ s d, h.sourcePort = some s ∧ h.destinationPort = some d ↔
        ∃ x, reference b = some x ∧ x.Whole ∧ word x.bytes 0 = s ∧ word x.bytes 2 = d) ∧
      h.sourcePort.isSome = h.destinationPort.isSome ∧
      ∀ id, h.fixtureIdentifier = some id ↔
        messages = true ∧ ∃ x, reference b = some x ∧ x.Fixture id := by
  obtain ⟨h, hh, hreports⟩ := exists_reports b messages
  exact ⟨h, hh, hreports.ports, hreports.both, hreports.fixture⟩

end Graphlab.Packets
